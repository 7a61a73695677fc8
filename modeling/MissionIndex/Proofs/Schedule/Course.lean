import Mathlib.Logic.Function.Iterate
import Mathlib.Logic.Relation
import MissionIndex.Proofs.Schedule.Agenda
import MissionIndex.Proofs.Schedule.Settling
import MissionIndex.Schedule.Clock

/-!
# The course of a clock

What a clock does is made of a few small things: a note in its log, an action that is ready soon or
planned for later, and a move of its dispatcher. A round performs one action after another, and no
action looks at those that wait behind it (`ahead_perform`), so a run is a row of single actions
(`round_eq`).

## Courses

A run of a clock performs actions in the order in which they have become ready. The claims that hold
of every course of things do not depend on this order, nor on when something comes from outside, so
a *course* may take the actions that are ready in any order, let events and cancellations by callers
come at any moment, and move time on at any moment, also when something is ready (`Step`). A task
that asks something of the dispatcher does so in between its start and its end, and is a suspended
one here. Runs are courses (`reaches_run`).
-/

namespace MissionIndex.Schedule

namespace Clock

variable {σ ρ ι : Type} {clock : Clock σ ρ ι} {run : Run (Task σ ρ ι)} {label : ι}

/-! ## Small things -/

def news (clock : Clock σ ρ ι) (move : Move (Task σ ρ ι) ρ) : List (Nat × Entry ρ ι) :=
  ((clock.dispatcher.move move).settled.drop clock.dispatcher.settled.length).filterMap
  fun (number, outcome) ↦
    clock.labels[number]?.map fun label ↦ (clock.now.time, .settled label outcome)

theorem move_eq (clock : Clock σ ρ ι) (move : Move (Task σ ρ ι) ρ) :
    clock.move move =
      { clock with
        dispatcher := clock.dispatcher.move move
        log := clock.log ++ clock.news move } := by
  -- Writing into the log changes neither the labels nor the time.
  have hfold : ∀ (f : Clock σ ρ ι → Nat × Settled ρ → Clock σ ρ ι),
      (∀ clock e, f clock e = { clock with
        log := clock.log ++ (clock.labels[e.1]?.map fun label ↦
          (clock.now.time, Entry.settled label e.2)).toList }) →
      ∀ (settled : List (Nat × Settled ρ)) (clock : Clock σ ρ ι),
        settled.foldl f clock = { clock with
          log := clock.log ++ settled.filterMap (fun e ↦
            clock.labels[e.1]?.map fun label ↦ (clock.now.time, Entry.settled label e.2)) } := by
    intro f hf settled
    induction settled with
    | nil => exact fun clock ↦ by rw [List.filterMap_nil, List.append_nil, List.foldl_nil]
    | cons e rest ih =>
      intro clock
      rw [List.foldl_cons, ih, hf, List.filterMap_cons]
      cases clock.labels[e.1]? <;> simp
  rw [Clock.move]
  refine hfold _ (fun clock e ↦ ?_) _ _
  cases hlabel : clock.labels[e.1]? with
  | none => simp [hlabel]
  | some label => simp [hlabel, note]

/-- What those who wait to close wait for once a run has ended. -/
def leftOf (number : Nat) (closing : List (ι × List Nat)) : List (ι × List Nat) :=
  closing.map fun (label, runs) ↦ (label, runs.filter (· != number))

def lastWaiting (number : Nat) (closing : List (ι × List Nat)) : List ι :=
  ((closing.zip (leftOf number closing)).filter fun (before, after) ↦
    before.2.contains number && after.2.isEmpty).map fun (_, label, _) ↦ label

theorem noticeEnd_eq (clock : Clock σ ρ ι) (number : Nat) :
    clock.noticeEnd number =
      { clock with
        closing := (leftOf number clock.closing).filter fun (_, runs) ↦ !runs.isEmpty
        ready := clock.ready ++ (lastWaiting number clock.closing).map .closed } := by
  have hfold : ∀ (f : Clock σ ρ ι → (ι × List Nat) × ι × List Nat → Clock σ ρ ι),
      (∀ clock e, f clock e = clock.soon (.closed e.2.1)) →
      ∀ (finished : List ((ι × List Nat) × ι × List Nat)) (clock : Clock σ ρ ι),
finished.foldl f clock
          = { clock with ready := clock.ready ++ (finished.map (·.2.1)).map .closed } := by
    intro f hf finished
    induction finished with
    | nil => exact fun clock ↦ by rw [List.map_nil, List.map_nil, List.append_nil, List.foldl_nil]
    | cons e rest ih =>
      intro clock
      rw [List.foldl_cons, ih, hf]
      simp only [soon, List.map_cons, List.append_assoc, List.singleton_append]
  rw [noticeEnd]
  exact hfold _ (fun _ _ ↦ rfl) _ _

/-- A clock with the state that a task leaves when it ends, and with the run ended. -/
def ended (clock : Clock σ ρ ι) (run : Run (Task σ ρ ι)) : Clock σ ρ ι :=
  { clock.note (.ended run.task.label) with state := (run.task.act clock.state).1 }.move
    (.finish run.number (run.task.act clock.state).2)

def gateLeft? (clock : Clock σ ρ ι) (run : Run (Task σ ρ ι)) : Option Nat :=
  (clock.dispatcher.gateOf.lookup run.key).filter fun gate ↦
    !((clock.ended run).dispatcher.gateAt gate).queue.isEmpty

theorem finish_eq (clock : Clock σ ρ ι) (run : Run (Task σ ρ ι)) :
    clock.finish run =
      { clock.ended run with
        ready := (clock.ended run).ready ++ ((clock.gateLeft? run).map .wake).toList ++
          [.noticeEnd run.number] } := by
  have hgate : (clock.note (.ended run.task.label)).dispatcher.gateOf.lookup run.key
      = clock.dispatcher.gateOf.lookup run.key := rfl
  rw [gateLeft?, Clock.finish]
  simp only [hgate]
  cases clock.dispatcher.gateOf.lookup run.key with
  | none => rw [Option.filter_none, Option.map_none, Option.toList_none, List.append_nil]; rfl
  | some gate =>
    rw [Option.filter_some]
    change soon (if ((clock.ended run).dispatcher.gateAt gate).queue.isEmpty then clock.ended run
      else (clock.ended run).soon (.wake gate)) (.noticeEnd run.number) = _
    cases ((clock.ended run).dispatcher.gateAt gate).queue.isEmpty with
    | true => simp [soon]
    | false => simp [soon]

theorem moveOn_of_log_eq {move : Move (Task σ ρ ι) ρ}
    (h : (clock.dispatcher.move move).log = clock.dispatcher.log) :
    clock.moveOn move = clock.move move := by
  rw [moveOn, move_eq]
  simp only [h, List.drop_length, List.foldl_nil]

theorem moveOn_of_started {move : Move (Task σ ρ ι) ρ} {time : Nat}
    (h : (clock.dispatcher.move move).log = clock.dispatcher.log ++ [(time, .started run)]) :
    clock.moveOn move = (clock.move move).start run := by
  rw [moveOn, move_eq]
  simp only [h, List.drop_left, List.foldl_cons, List.foldl_nil]

theorem moveOn_enter (h : clock.dispatcher.Gated) :
    clock.moveOn .enter = clock.move .enter ∧ (clock.dispatcher.move .enter).log
      = clock.dispatcher.log ∨
      ∃ run, clock.moveOn .enter = (clock.move .enter).start run ∧
        (clock.dispatcher.move .enter).log = clock.dispatcher.log ++
          [(clock.dispatcher.now, .started run)] := by
  obtain ⟨-, heq⟩ | ⟨run, launched, -, ⟨number, -, heq⟩ | ⟨-, heq⟩⟩ := Dispatcher.enter_cases h
  · have hlog : (clock.dispatcher.move .enter).log = clock.dispatcher.log :=
      congrArg Dispatcher.log heq
    exact .inl ⟨moveOn_of_log_eq hlog, hlog⟩
  · have hlog : (clock.dispatcher.move .enter).log = clock.dispatcher.log := by
      rw [Dispatcher.move, heq]
    exact .inl ⟨moveOn_of_log_eq hlog, hlog⟩
  · have hlog : (clock.dispatcher.move .enter).log = clock.dispatcher.log ++
        [(clock.dispatcher.now, .started run)] :=
      congrArg Dispatcher.log heq
    exact .inr ⟨run, moveOn_of_started hlog, hlog⟩

theorem moveOn_wake (h : clock.dispatcher.Sound) (gate : Nat) :
    clock.moveOn (.wake gate) = clock.move (.wake gate) ∧
        (clock.dispatcher.move (.wake gate)).log = clock.dispatcher.log ∨
      ∃ run, clock.moveOn (.wake gate) = (clock.move (.wake gate)).start run ∧
        (clock.dispatcher.move (.wake gate)).log = clock.dispatcher.log ++
          [(clock.dispatcher.now, .started run)] := by
  obtain ⟨heq, -⟩ | ⟨before, v, after, -, -, -, -, heq⟩ :=
    Dispatcher.wake_cases h.gated h.accounts.nodup_visits gate
  · have hlog : (clock.dispatcher.move (.wake gate)).log = clock.dispatcher.log :=
      congrArg Dispatcher.log heq
    exact .inl ⟨moveOn_of_log_eq hlog, hlog⟩
  · have hlog : (clock.dispatcher.move (.wake gate)).log
        = clock.dispatcher.log ++ [(clock.dispatcher.now, .started v.run)] :=
          congrArg Dispatcher.log heq
    exact .inr ⟨v.run, moveOn_of_started hlog, hlog⟩

def nextMoment (clock : Clock σ ρ ι) : Moment :=
  match clock.ready, clock.agenda.next? with
  | [], some (due, _) => due
  | _, _ => clock.now

/-- A clock at a moment, with what is due by then made ready. -/
def moveTo (clock : Clock σ ρ ι) (now : Moment) : Clock σ ρ ι :=
  { clock with
    now
    agenda := (clock.agenda.span fun due _ ↦ !now.before due).2
    ready := clock.ready ++ (clock.agenda.span fun due _ ↦ !now.before due).1 }

theorem advance_eq (clock : Clock σ ρ ι) :
    clock.advance = (clock.moveTo clock.nextMoment).move (.pass clock.nextMoment.time) := rfl

/-! ## One action after another -/

/-- A clock with actions in front of those that are ready. -/
def ahead (due : List (Action σ ρ ι)) (clock : Clock σ ρ ι) : Clock σ ρ ι :=
  { clock with ready := due ++ clock.ready }

section Ahead

variable (due : List (Action σ ρ ι)) (clock : Clock σ ρ ι)

theorem ahead_soon (action : Action σ ρ ι) :
    (clock.ahead due).soon action = (clock.soon action).ahead due := by
  simp only [soon, ahead, List.append_assoc]

theorem ahead_move (move : Move (Task σ ρ ι) ρ) :
    (clock.ahead due).move move = (clock.move move).ahead due := by
  rw [move_eq, move_eq]
  rfl

theorem ahead_noticeEnd (number : Nat) :
    (clock.ahead due).noticeEnd number = (clock.noticeEnd number).ahead due := by
  rw [noticeEnd_eq, noticeEnd_eq]
  simp only [ahead, List.append_assoc]

theorem ahead_ended (run : Run (Task σ ρ ι)) :
    (clock.ahead due).ended run = (clock.ended run).ahead due :=
  ahead_move due { clock.note (.ended run.task.label) with state := (run.task.act clock.state).1 } _

theorem ahead_finish (run : Run (Task σ ρ ι)) :
    (clock.ahead due).finish run = (clock.finish run).ahead due := by
  have hgate : (clock.ahead due).gateLeft? run = clock.gateLeft? run := by
    rw [gateLeft?, gateLeft?, ahead_ended]
    rfl
  rw [finish_eq, finish_eq, hgate, ahead_ended]
  simp only [ahead, List.append_assoc]

theorem ahead_start (run : Run (Task σ ρ ι)) :
    (clock.ahead due).start run = (clock.start run).ahead due := by
  rw [start, start]
  split
  · exact ahead_finish due (clock.note (.started run.task.label)) run
  · exact ahead_soon due (clock.note (.started run.task.label)) _
  · rfl

theorem ahead_moveOn (move : Move (Task σ ρ ι) ρ) :
    (clock.ahead due).moveOn move = (clock.moveOn move).ahead due := by
  have hfold : ∀ (f : Clock σ ρ ι → Nat × Mark (Task σ ρ ι) ρ → Clock σ ρ ι),
      (∀ clock e, f (clock.ahead due) e = (f clock e).ahead due) →
      ∀ (marks : List (Nat × Mark (Task σ ρ ι) ρ)) (clock : Clock σ ρ ι),
        marks.foldl f (clock.ahead due) = (marks.foldl f clock).ahead due := by
    intro f hf marks
    induction marks with
    | nil => exact fun _ ↦ rfl
    | cons e rest ih =>
      intro clock
      rw [List.foldl_cons, List.foldl_cons, hf, ih]
  rw [moveOn, moveOn, ahead_move]
  refine hfold _ (fun clock e ↦ ?_) _ _
  obtain ⟨time, mark⟩ := e
  cases mark with
  | started run => exact ahead_start due clock run
  | _ => rfl

theorem ahead_beginClosing (label : ι) :
    (clock.ahead due).beginClosing label = (clock.beginClosing label).ahead due := by
  have hsame : ((clock.move .close).ahead due).dispatcher = (clock.move .close).dispatcher := rfl
  rw [beginClosing, beginClosing, ahead_move, hsame]
  split <;> rfl

theorem ahead_take (event : Event σ ρ ι) :
    (clock.ahead due).take event = (clock.take event).ahead due := by
  cases event with
  | request key task =>
    have hmove := ahead_move due { clock with labels := clock.labels ++ [task.label] }
      (.request key task)
    exact congrArg (fun c : Clock σ ρ ι ↦
      c.planAfter c.dispatcher.delay (.endWait clock.dispatcher.made)) hmove
  | cancel key => exact ahead_move due clock _
  | ask key => rfl
  | setDelay delay => exact ahead_move due clock _
  | close label => exact ahead_soon due clock _
  | change label act => rfl

theorem ahead_perform (action : Action σ ρ ι) :
    (clock.ahead due).perform action = (clock.perform action).ahead due := by
  cases action with
  | event event => exact ahead_take due clock event
  | endWait number =>
    rw [perform, perform, ahead_move]
    have hsame : (clock.ahead due).dispatcher = clock.dispatcher := rfl
    simp only [hsame]
    split
    · exact ahead_soon due _ _
    · rfl
  | enter => exact ahead_moveOn due clock _
  | wake gate => exact ahead_moveOn due clock _
  | resume run => exact ahead_finish due clock run
  | noticeEnd number => exact ahead_noticeEnd due clock number
  | beginClosing label => exact ahead_beginClosing due clock label
  | closed label => rfl
  | stop => rfl

end Ahead

/-- Performs the first of the actions that are ready. -/
def performNext (clock : Clock σ ρ ι) : Clock σ ρ ι :=
  match clock.ready with
  | [] => clock
  | action :: rest => { clock with ready := rest }.perform action

theorem performNext_ahead (action : Action σ ρ ι) (due : List (Action σ ρ ι))
    (clock : Clock σ ρ ι) :
    (clock.ahead (action :: due)).performNext = (clock.perform action).ahead due :=
  ahead_perform due clock action

theorem foldl_perform (due : List (Action σ ρ ι)) (clock : Clock σ ρ ι) :
    due.foldl perform clock = performNext^[due.length] (clock.ahead due) := by
  induction due generalizing clock with
  | nil => rfl
  | cons action due ih =>
    rw [List.foldl_cons, ih, List.length_cons, Function.iterate_succ_apply, performNext_ahead]

/-- **A round performs the actions that are ready one by one.** -/
theorem round_eq (clock : Clock σ ρ ι) :
    clock.round = performNext^[clock.dropStale.advance.ready.length] clock.dropStale.advance := by
  rw [round, foldl_perform, ahead, List.append_nil]

/-! ## Courses -/

/-- What can come next in the course of things. -/
inductive Step (clock : Clock σ ρ ι) : Clock σ ρ ι → Prop
  /-- Something comes from outside, or from a task that is suspended. -/
  | take (event : Event σ ρ ι) : Step clock (clock.take event)
  /-- The caller of a request gives it up. -/
  | abandon (number : Nat) : Step clock (clock.move (.abandon number))
  /-- Somebody begins to close. -/
  | close (label : ι) : Step clock (clock.beginClosing label)
  /-- An event is planned. -/
  | planAt (time : Nat) (event : Event σ ρ ι) : Step clock (clock.planAt time (.event event))
  | planAfter (delay : Nat) (event : Event σ ρ ι) : Step clock
      (clock.planAfter delay (.event event))
  /-- One of the actions that are ready is performed. -/
  | perform {before after : List (Action σ ρ ι)} {action : Action σ ρ ι} :
      clock.ready = before ++ action :: after →
      Step clock ({ clock with ready := before ++ after }.perform action)
  | dropStale : Step clock clock.dropStale
  /-- Time moves on, and what is due by then becomes ready. -/
  | pass (now : Moment) : Step clock ((clock.moveTo now).move (.pass now.time))

/-- A clock can come to another one. -/
def Reaches : Clock σ ρ ι → Clock σ ρ ι → Prop := Relation.ReflTransGen Step

theorem reaches_performNext (clock : Clock σ ρ ι) : Reaches clock clock.performNext := by
  rw [performNext]
  cases hready : clock.ready with
  | nil => exact .refl
  | cons action rest =>
    have hfirst : clock.ready = [] ++ action :: rest := hready
    exact .single (.perform hfirst)

theorem reaches_iterate (n : Nat) (clock : Clock σ ρ ι) :
    Reaches clock (performNext^[n] clock) := by
  induction n generalizing clock with
  | zero => exact .refl
  | succ n ih =>
    rw [Function.iterate_succ_apply]
    exact (reaches_performNext clock).trans (ih _)

theorem reaches_round (clock : Clock σ ρ ι) : Reaches clock clock.round := by
  rw [round_eq]
  have hpass : Reaches clock.dropStale clock.dropStale.advance := .single (.pass _)
  exact (Relation.ReflTransGen.single .dropStale).trans (hpass.trans (reaches_iterate _ _))

/-- **A run is a course.** -/
theorem reaches_run (n : Nat) (clock : Clock σ ρ ι) : Reaches clock (Clock.run n clock) := by
  induction n generalizing clock with
  | zero => exact .refl
  | succ n ih =>
    rw [Clock.run]
    split
    · exact .refl
    · exact (reaches_round clock).trans (ih _)

theorem reaches_planInTurn (events : List (Nat × Event σ ρ ι)) (clock : Clock σ ρ ι) :
    Reaches clock (clock.planInTurn events) := by
  induction events generalizing clock with
  | nil => exact .refl
  | cons e rest ih => exact (Relation.ReflTransGen.single (.planAfter e.1 e.2)).trans (ih _)

end Clock

end MissionIndex.Schedule
