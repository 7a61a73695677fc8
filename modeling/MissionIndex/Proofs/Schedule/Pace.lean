import Mathlib.Algebra.GroupWithZero.Nat
import MissionIndex.Proofs.Schedule.Turns

/-!
# When it is over

Each action that is still to be performed makes some work, at most so much as its weight. Performing
it makes the work left less (`load_doing`), so after a number of rounds that is known beforehand
there is none (`going_runThrough`).
-/

namespace MissionIndex.Schedule

variable {σ ρ ι : Type}

/-- How much work an action may make, itself included. A run that waits in line makes some, too. -/
def Action.weight : Action σ ρ ι → Nat
  | .event _ => 6
  | .endWait _ => 5
  | .enter => 4
  | .resume _ => 3
  | _ => 1

theorem Action.weight_pos (action : Action σ ρ ι) : 0 < action.weight := by
  cases action <;> exact Nat.succ_pos _

namespace Clock

variable {clock clock' : Clock σ ρ ι}

/-! ## How much work is left -/

section Load

variable {n : Nat} {rest : List (Moment × Event σ ρ ι)} {owed : List (Run (Task σ ρ ι) × Nat)}
  {action : Action σ ρ ι} {ready : List (Action σ ρ ι)} {run : Run (Task σ ρ ι)}

/-- How much work is left at most. -/
def load (clock : Clock σ ρ ι) : Nat :=
  (clock.schedule.map (·.2.weight)).sum + 3 * clock.dispatcher.visits.countP (!·.isRunning)

theorem load_soon (clock : Clock σ ρ ι) (actions : List (Action σ ρ ι)) :
    { clock with ready := clock.ready ++ actions }.load = (actions.map Action.weight).sum +
      clock.load := by
  rw [load, ((perm_schedule_soon clock actions).map _).sum_nat, List.map_append, List.map_map,
    List.sum_append_nat, load, Nat.add_assoc]
  rfl

theorem load_plan (clock : Clock σ ρ ι) (due : Moment) (action : Action σ ρ ι) (planned : Nat) :
    { clock with agenda := clock.agenda.insert due action, planned }.load = action.weight +
      clock.load := by
  rw [load, ((perm_schedule_plan clock due action planned).map _).sum_nat, List.map_cons,
    List.sum_cons, load, Nat.add_assoc]

theorem load_of_visits (clock : Clock σ ρ ι) {d : Dispatcher (Task σ ρ ι) ρ}
    (h : d.visits.countP (!·.isRunning) = clock.dispatcher.visits.countP (!·.isRunning)) :
    { clock with dispatcher := d }.load = clock.load := by
  rw [load, load, h]
  rfl

theorem load_of_ready (h : clock.ready = action :: ready) :
    clock.load = action.weight + { clock with ready }.load := by
  rw [load, load, schedule_of_ready h, List.map_cons, List.sum_cons, Nat.add_assoc]

theorem load_finish (h : Going n rest ((run, clock.now.time) :: owed) clock) :
    (clock.finish run).load ≤ clock.load + 2 := by
  obtain ⟨gate, before, after, hfinished⟩ :=
    Dispatcher.exists_finished h.attends.sound h.mem_running (run.task.act clock.state).2
  have hvisits : (clock.dispatcher.finish run.number (run.task.act clock.state).2).visits.countP
    (!·.isRunning)
      = clock.dispatcher.visits.countP (!·.isRunning) := by
    rw [hfinished.visits, hfinished.split, List.countP_append, List.countP_append,
      List.countP_cons_of_neg (by rintro ⟨⟩)]
  have hended : (clock.ended run).load = clock.load := by
    rw [ended_eq]
    exact load_of_visits _ hvisits
  have hload := load_soon (clock.ended run) (clock.sequel run)
  have hsequel : ((clock.sequel run).map Action.weight).sum ≤ 2 := by
    rw [sequel]
    cases clock.gateLeft? run <;> simp [Action.weight]
  rw [hended, ended_eq] at hload
  rw [finish_eq_sequel]
  exact Nat.le_trans (Nat.le_of_eq hload) (by omega)

theorem load_start (h : Going n rest ((run, clock.now.time + run.task.duration.getD 0) ::
    owed) clock) :
    (clock.start run).load ≤ clock.load + 3 := by
  have hnoted := h.note (.started run.task.label)
  rw [Clock.start]
  split
  · next hduration =>
    rw [hduration] at hnoted
    exact Nat.le_succ_of_le (load_finish hnoted)
  · have hload := load_soon (clock.note (.started run.task.label)) [.resume run]
    exact Nat.le_of_eq (hload.trans (Nat.add_comm _ _))
  · have hload := load_plan (clock.note (.started run.task.label))
    exact Nat.le_of_eq ((hload _ _ _).trans (Nat.add_comm _ _))

/-- An action leaves less work than there was. -/
theorem load_doing (h : Going n rest [] clock) (hdoing : Doing clock clock') :
    clock'.load < clock.load := by
  cases hdoing with
  | @nothing action ready hready =>
    have hpos := action.weight_pos
    rw [load_of_ready hready]
    omega
  | @launch ready w earlier hready _ _ _ heq =>
    have hsame : { clock with dispatcher := clock.dispatcher.move (.endWait w.number), ready }.load
        = { clock with ready }.load := load_of_visits { clock with ready } (by rw [heq])
    have hload := load_soon
      { clock with dispatcher := clock.dispatcher.move (.endWait w.number), ready } [.enter]
    rw [load_of_ready hready, ← hsame]
    refine Nat.lt_of_le_of_lt (Nat.le_of_eq hload) ?_
    exact Nat.add_lt_add_right (Nat.lt_succ_self 4) _
  | @join ready run launched gate hready _ _ heq =>
    rw [load_of_ready hready, load, load, heq, List.countP_append]
    have hschedule : ∀ d : Dispatcher (Task σ ρ ι) ρ, { clock with dispatcher := d, ready }.schedule
        = { clock with ready }.schedule := fun _ ↦ rfl
    rw [hschedule]
    simp [Action.weight]
    omega
  | @start action ready run m hready hstarts =>
    have hload := load_start (h.starts hready hstarts _)
    have hvisits := hstarts.running.2
    have hlink : { clock with dispatcher := clock.dispatcher.move m, ready }.load
          + 3 * clock.dispatcher.visits.countP (!·.isRunning)
        = { clock with ready }.load + 3 * (clock.dispatcher.move m).visits.countP (!·.isRunning) :=
      Nat.add_right_comm _ _ _
    rw [load_of_ready hready]
    cases hstarts with
    | enter =>
      have hweight : (Action.enter : Action σ ρ ι).weight = 4 := rfl
      simp only [Action.isEnter, if_true, Nat.add_zero] at hvisits
      omega
    | @wake _ _ gate =>
      have hweight : (Action.wake gate : Action σ ρ ι).weight = 1 := rfl
      simp only [Action.isEnter, Bool.false_eq_true, if_false] at hvisits
      omega
  | @finish ready run hready =>
    have hload : ({ clock with ready }.finish run).load ≤ { clock with ready }.load + 2 :=
      load_finish (h.resumed hready)
    rw [load_of_ready hready]
    exact Nat.lt_of_le_of_lt hload (by simp only [Action.weight]; omega)

end Load

/-! ## How time moves on -/

/-- Time may move on if nothing is ready, and what is due becomes ready. Nothing else happens. -/
structure Passing (clock clock' : Clock σ ρ ι) : Prop where
  state : clock'.state = clock.state
  labels : clock'.labels = clock.labels
  log : clock'.log = clock.log
  dispatcher : clock'.dispatcher = { clock.dispatcher with now := clock'.now.time }
  endings : (endings clock'.schedule).Perm (endings clock.schedule)
  later : clock'.now = clock.now ∨ clock.now.before clock'.now = true ∧ clock.ready = []

theorem pass_eq {d : Dispatcher (Task σ ρ ι) ρ} {time : Nat} (hle : d.now ≤ time)
    (hdue : ∀ w ∈ d.waits, time ≤ w.due) :
    d.move (.pass time) = { d with now := time } := by
  have hall : d.waits.all (time ≤ ·.due) = true :=
    List.all_eq_true.mpr fun w hw ↦ decide_eq_true (hdue w hw)
  rw [Dispatcher.move, Dispatcher.pass, if_pos hall, Nat.max_eq_right hle]

theorem advance_eq_of_nextMoment {m : Moment} (hm : clock.nextMoment = m)
    (hle : clock.dispatcher.now ≤ m.time) (hdue : ∀ w ∈ clock.dispatcher.waits, m.time ≤ w.due) :
    clock.advance =
      { clock with
        now := m
        agenda := (clock.agenda.span fun due _ ↦ !m.before due).2
        ready := clock.ready ++ (clock.agenda.span fun due _ ↦ !m.before due).1
        dispatcher := { clock.dispatcher with now := m.time } } := by
  have hpass := pass_eq hle hdue
  rw [advance_eq, hm, move_of_settled_eq]
  · simp only [moveTo, hpass]
  · rw [moveTo, hpass]

namespace Going

variable {n : Nat} {rest : List (Moment × Event σ ρ ι)}

/-- Nobody misses what is taken out of the agenda if nobody awaits it. -/
theorem drop (h : Going n rest [] clock) {taken : List (Moment × Action σ ρ ι)}
    {agenda : Agenda (Action σ ρ ι)} (hperm : (taken ++ agenda.items).Perm clock.agenda.items)
    (hheap : agenda.IsHeap) (hstale : ∀ e ∈ taken, ∃ number, e.2 = .endWait number ∧
      ∀ w ∈ clock.dispatcher.waits, w.number ≠ number) :
    Going n rest [] { clock with agenda } ∧ Passing clock { clock with agenda } ∧
      { clock with agenda }.load ≤ clock.load := by
  have hperm' : clock.schedule.Perm
      (taken.map (fun e ↦ (e.1.time, e.2)) ++ { clock with agenda }.schedule) := by
    have hitems := (hperm.symm.map fun e : Moment × Action σ ρ ι ↦ (e.1.time, e.2)).append_left
      (clock.ready.map (clock.now.time, ·))
    rw [List.map_append, ← List.append_assoc] at hitems
    refine hitems.trans ((List.perm_append_comm.append_right _).trans ?_)
    rw [List.append_assoc]
    exact .refl _
  have hendings : (endings { clock with agenda }.schedule).Perm (endings clock.schedule) := by
    refine .trans ?_ (perm_endings hperm').symm
    rw [endings_append]
    refine List.forall_mem_map.mpr fun e he ↦ ?_
    obtain ⟨number, heq, -⟩ := hstale e he
    rw [heq]
    rfl
  have hinTurn := h.inTurn.drop hperm hheap fun e he ↦ by
    obtain ⟨number, heq, -⟩ := hstale e he
    rw [heq]
    rfl
  refine ⟨⟨hinTurn, ⟨⟨fun w hw ↦ ?_, fun time number hmem ↦ ?_⟩, h.attends.toCalls, h.attends.sound,
    h.attends.abandoned, h.attends.now, h.attends.labels, ?_⟩, h.closing, h.stopped, h.working⟩,
    ⟨rfl, rfl, rfl, ?_, hendings, .inl rfl⟩, ?_⟩
  · refine (List.mem_append.mp (hperm'.subset (h.attends.waits w hw))).resolve_left fun hmem ↦ ?_
    obtain ⟨e, he, heq⟩ := List.mem_map.mp hmem
    obtain ⟨number, hnumber, hnone⟩ := hstale e he
    exact hnone w hw (Action.endWait.inj (hnumber.symm.trans (Prod.mk.inj heq).2)).symm
  · exact h.attends.dues time number (hperm'.symm.subset (List.mem_append_right _ hmem))
  · exact (hendings.map Prod.fst).trans h.attends.resumes
  · rw [← h.attends.now]
  · rw [load, load, (hperm'.map _).sum_nat, List.map_append, List.sum_append_nat]
    simp only
    omega

theorem dropStale (h : Going n rest [] clock) :
    Going n rest [] clock.dropStale ∧ Passing clock clock.dropStale ∧
    clock.dropStale.load ≤ clock.load := by
  obtain ⟨taken, -, hparts⟩ := Agenda.exists_span (fun _ action ↦ clock.isStale action) clock.agenda
  refine h.drop hparts.perm (hparts.isHeap h.inTurn.isHeap) fun e he ↦ ?_
  have hholds := hparts.holds e he
  obtain ⟨m, action⟩ := e
  cases action with
  | endWait number =>
    refine ⟨number, rfl, fun w hw hnumber ↦ ?_⟩
    have hnone : clock.dispatcher.isWaiting number = false := by simpa [isStale] using hholds
    exact List.any_eq_false.mp hnone w hw (beq_iff_eq.mpr hnumber)
  | _ => cases hholds

/-- Time stands still while something is ready, and when nothing is due any more. -/
theorem advance_of_now (h : Going n rest [] clock) (hnow : clock.nextMoment = clock.now) :
    Going n rest [] clock.advance ∧ Passing clock clock.advance ∧ clock.advance.load ≤ clock.load ∧
      clock.advance.ready = clock.ready ∧ clock.advance.agenda.items.Perm clock.agenda.items := by
  obtain ⟨taken, htaken, hparts⟩ :=
    Agenda.exists_span (fun due _ ↦ !clock.now.before due) clock.agenda
  have hnone : taken = [] := by
    refine List.eq_nil_iff_forall_not_mem.mpr fun e he ↦ ?_
    have hlater := h.inTurn.later e (hparts.perm.subset (List.mem_append_left _ he))
    have hholds := hparts.holds e he
    rw [hlater] at hholds
    cases hholds
  subst hnone
  have hdispatcher : { clock.dispatcher with now := clock.now.time } = clock.dispatcher := by
    rw [← h.attends.now]
  have hadvance : clock.advance
      = { clock with agenda := (clock.agenda.span fun due _ ↦ !clock.now.before due).2 } := by
    rw [advance_eq_of_nextMoment hnow (Nat.le_of_eq h.attends.now)
      fun w hw ↦ h.attends.now ▸ h.attends.sound.waiting.due w hw]
    simp only [hdispatcher, ← htaken, List.map_nil, List.append_nil]
  obtain ⟨hgoing, hpassing, hload⟩ :=
    h.drop hparts.perm (hparts.isHeap h.inTurn.isHeap) (by rintro _ ⟨⟩)
  rw [hadvance]
  exact ⟨hgoing, hpassing, hload, rfl, hparts.perm⟩

/-- Time moves on to what is due next. -/
theorem advance_of_next (h : Going n rest [] clock) (hready : clock.ready = []) {m : Moment}
    {action : Action σ ρ ι} (hnext : clock.agenda.next? = some (m, action)) :
    clock.advance =
        { clock with
          now := m
          agenda := (clock.agenda.span fun due _ ↦ !m.before due).2
          ready := (clock.agenda.span fun due _ ↦ !m.before due).1
          dispatcher := { clock.dispatcher with now := m.time } } ∧
      clock.now.before m = true ∧
      ({ clock.dispatcher with now := m.time } : Dispatcher (Task σ ρ ι) ρ).Sound ∧
      clock.schedule.Perm
        ((clock.agenda.span fun due _ ↦ !m.before due).1.map (m.time, ·)
          ++ (clock.agenda.span fun due _ ↦ !m.before due).2.items.map fun e ↦
          (e.1.time, e.2)) := by
  obtain ⟨taken, htaken, hperm, -, hmem, hsame, -⟩ := h.inTurn.exists_due hnext
  have hlater := h.inTurn.later _ (hperm.subset (List.mem_append_left _ hmem))
  have hnow : clock.nextMoment = m := by rw [nextMoment, hready, hnext]
  have hle : clock.dispatcher.now ≤ m.time := by
    rw [h.attends.now]
    rw [Moment.before_iff] at hlater
    simp only at hlater
    omega
  have hdue : ∀ w ∈ clock.dispatcher.waits, m.time ≤ w.due := by
    intro w hw
    have hentry := h.attends.waits w hw
    rw [schedule, hready, List.map_nil, List.nil_append] at hentry
    obtain ⟨e, he, heq⟩ := List.mem_map.mp hentry
    have hnot := h.inTurn.isHeap.not_before_next hnext he
    rw [Moment.not_before_iff] at hnot
    have htime := (Prod.mk.inj heq).1
    omega
  refine ⟨?_, hlater, ?_, ?_⟩
  · rw [advance_eq_of_nextMoment hnow hle hdue, hready, List.nil_append]
  · rw [← pass_eq hle hdue]
    exact h.attends.sound.move _
  · rw [schedule, hready, List.map_nil, List.nil_append, ← htaken, List.map_map]
    refine (hperm.symm.map _).trans ?_
    rw [List.map_append]
    refine .of_eq (congrArg (· ++ _) (List.map_congr_left fun e he ↦ ?_))
    rw [hsame e he]
    rfl

theorem launched_eq_nil (h : Going n rest [] clock) (hready : clock.ready = []) :
    clock.dispatcher.launched = [] := by
  have henters := h.attends.enters
  rw [hready] at henters
  exact List.length_eq_zero_iff.mp (Nat.le_zero.mp henters)

theorem not_wakes (h : Going n rest [] clock) (hready : clock.ready = []) (gate : Nat) :
    (clock.dispatcher.gateAt gate).isHeld = false → (clock.dispatcher.gateAt gate).queue ≠ [] →
    False := by
  intro hheld hqueue
  have hwake := h.attends.wakes gate hheld hqueue
  rw [hready] at hwake
  cases hwake

/-- Time moves on to what requests and runs have planned. -/
theorem advance_of_timer (h : Going n rest [] clock) (hready : clock.ready = []) {m : Moment}
    {action : Action σ ρ ι} (hnext : clock.agenda.next? = some (m, action))
    (hnone : action.event? = none) :
    Going n rest [] clock.advance ∧ Passing clock clock.advance ∧ clock.advance.load ≤ clock.load ∧
      clock.advance.ready ≠ [] := by
  obtain ⟨hadvance, hlater, hsound, hperm⟩ := h.advance_of_next hready hnext
  have hinTurn := h.inTurn
  rw [hready] at hinTurn
  have hdue := hinTurn.timers_due hnext hnone
  have hne : (clock.agenda.span fun due _ ↦ !m.before due).1 ≠ [] := by
    obtain ⟨taken, htaken, -, -, hmem, -⟩ := hinTurn.exists_due hnext
    rw [← htaken]
    exact List.ne_nil_of_mem (List.mem_map_of_mem hmem)
  rw [hadvance]
  generalize (clock.agenda.span fun due _ ↦ !m.before due).1 = ready at hdue hperm hne
  generalize (clock.agenda.span fun due _ ↦ !m.before due).2 = agenda at hdue hperm
  have hendings := perm_endings hperm.symm
  refine ⟨⟨hdue, ⟨?_, ⟨?_, fun gate hheld hqueue ↦ (h.not_wakes hready gate hheld hqueue).elim⟩,
    hsound, h.attends.abandoned, rfl, h.attends.labels,
    (hendings.map Prod.fst).trans h.attends.resumes⟩, h.closing, h.stopped,
    fun hne ↦ absurd rfl hne⟩, ⟨rfl, rfl, rfl, rfl, hendings, .inr ⟨hlater, hready⟩⟩, ?_, hne⟩
  · exact Awaits.perm (Awaits.of_waits h.attends.toAwaits rfl (List.Subset.refl _)) hperm.symm
  · simp only [h.launched_eq_nil hready]
    exact Nat.zero_le _
  · rw [load, load, (hperm.map _).sum_nat]
    exact Nat.le_refl _

/-- Time moves on to an event, which is the next of those to come. -/
theorem advance_of_event (h : Going n rest [] clock) (hready : clock.ready = []) {m : Moment}
    {event : Event σ ρ ι} (hnext : clock.agenda.next? = some (m, .event event)) :
    ∃ rest' arrived, rest = (m, event) :: rest' ∧ Going n rest' [] arrived ∧ Passing clock arrived ∧
      arrived.ready = [] ∧ arrived.now = m ∧
      clock.advance = { arrived with ready := [.event event] } ∧
      arrived.load + 6 = clock.load := by
  obtain ⟨hadvance, hlater, hsound, hperm⟩ := h.advance_of_next hready hnext
  have hinTurn := h.inTurn
  rw [hready] at hinTurn
  obtain ⟨hdue, -, rest', rfl, hgoing⟩ := hinTurn.event_due hnext
  rw [hdue] at hadvance hperm
  generalize (clock.agenda.span fun due _ ↦ !m.before due).2 = agenda at hadvance hgoing hperm
  have hendings := perm_endings hperm.symm
  refine ⟨rest', { clock with
    now := m
    agenda
    ready := []
    dispatcher := { clock.dispatcher with now := m.time } }, rfl,
    ⟨hgoing, ⟨?_, ⟨?_, fun gate hheld hqueue ↦
      (h.not_wakes hready gate hheld hqueue).elim⟩, hsound, h.attends.abandoned, rfl,
      h.attends.labels,
      (hendings.map Prod.fst).trans h.attends.resumes⟩, h.closing, h.stopped,
      fun hne ↦ absurd rfl hne⟩,
    ⟨rfl, rfl, rfl, rfl, hendings, .inr ⟨hlater, hready⟩⟩, rfl, rfl, hadvance, ?_⟩
  · have hawaits := h.attends.toAwaits.perm hperm.symm
    exact Awaits.of_cons hawaits rfl (List.Subset.refl _) (by rintro _ _ ⟨⟩)
  · simp only [h.launched_eq_nil hready]
    exact Nat.zero_le _
  · have hload : clock.load = 6 + ((agenda.items.map fun e ↦ (e.1.time, e.2)).map (·.2.weight)).sum
        + 3 * clock.dispatcher.visits.countP (!·.isRunning) := by
      rw [load, (hperm.map _).sum_nat]
      rfl
    rw [hload, load]
    simp only [schedule, List.map_nil, List.nil_append]
    omega

/-- Time moves on. What is due next has been planned by a request or by a run, or it is the next
event. -/
theorem advance (h : Going n rest [] clock) :
    (Going n rest [] clock.advance ∧ Passing clock clock.advance ∧ clock.advance.load ≤ clock.load ∧
      (clock.advance.ready = [] → clock.advance.agenda.next? = none)) ∨
    ∃ m event rest' arrived, rest = (m, event) :: rest' ∧ Going n rest' [] arrived ∧
    Passing clock arrived ∧
      arrived.ready = [] ∧ arrived.now = m ∧
      clock.advance = { arrived with ready := [.event event] } ∧
      arrived.load + 6 = clock.load := by
  cases hready : clock.ready with
  | cons action ready =>
    have hnow : clock.nextMoment = clock.now := by rw [nextMoment, hready]
    obtain ⟨hgoing, hpassing, hload, hsame, -⟩ := h.advance_of_now hnow
    refine .inl ⟨hgoing, hpassing, hload, fun hnil ↦ ?_⟩
    rw [hsame, hready] at hnil
    cases hnil
  | nil =>
    cases hnext : clock.agenda.next? with
    | none =>
      have hnow : clock.nextMoment = clock.now := by rw [nextMoment, hready, hnext]
      obtain ⟨hgoing, hpassing, hload, -, hitems⟩ := h.advance_of_now hnow
      refine .inl ⟨hgoing, hpassing, hload, fun _ ↦ Agenda.next?_eq_none_iff.mpr ?_⟩
      rw [Agenda.next?_eq_none_iff.mp hnext] at hitems
      exact hitems.eq_nil
    | some next =>
      obtain ⟨m, action⟩ := next
      cases hevent : action.event? with
      | none =>
        obtain ⟨hgoing, hpassing, hload, hne⟩ := h.advance_of_timer hready hnext hevent
        exact .inl ⟨hgoing, hpassing, hload, fun hnil ↦ absurd hnil hne⟩
      | some event =>
        obtain rfl : action = .event event := by
          cases action <;> first | exact congrArg _ (Option.some.inj hevent) | cases hevent
        exact .inr ⟨m, event, h.advance_of_event hready hnext⟩

end Going

/-! ## Events -/

theorem take_request (h : clock.dispatcher.Waiting) (key : String) (task : Task σ ρ ι) :
    clock.take (.request key task) =
      { clock with
        dispatcher := clock.dispatcher.move (.request key task)
        labels := clock.labels ++ [task.label]
        agenda := clock.agenda.insert
          ⟨clock.now.time + clock.dispatcher.delay, clock.now.tick + (clock.planned + 1)⟩
          (.endWait clock.dispatcher.made)
        planned := clock.planned + 1 } := by
  have hsettled : (clock.dispatcher.move (.request key task)).settled
      = clock.dispatcher.settled := by
    rw [Dispatcher.move, Dispatcher.request_eq h]
  have hdelay : (clock.dispatcher.move (.request key task)).delay = clock.dispatcher.delay := by
    rw [Dispatcher.move, Dispatcher.request_eq h]
  have hmove : { clock with labels := clock.labels ++ [task.label] }.move (.request key task)
      = { clock with
          dispatcher := clock.dispatcher.move (.request key task)
          labels := clock.labels ++ [task.label] } := move_of_settled_eq hsettled
  simp only [take, hmove, planAfter, hdelay]

namespace Going

variable {n : Nat} {rest : List (Moment × Event σ ρ ι)}

theorem of_sameRuns (h : Going n rest [] clock) {d : Dispatcher (Task σ ρ ι) ρ} (hsound : d.Sound)
    (hruns : Dispatcher.SameRuns clock.dispatcher d) (hnow : d.now = clock.dispatcher.now)
    (hmade : d.made = clock.dispatcher.made) (hwaits : d.waits ⊆ clock.dispatcher.waits)
    (habandoned : d.abandoned = clock.dispatcher.abandoned) (log : List (Nat × Entry ρ ι)) :
    Going n rest [] { clock with dispatcher := d, log } := by
  refine ⟨h.inTurn, ⟨Awaits.of_waits h.attends.toAwaits hmade hwaits, ⟨?_, fun gate ↦ ?_⟩, hsound,
    habandoned.trans h.attends.abandoned, hnow.trans h.attends.now,
    h.attends.labels.trans hmade.symm, ?_⟩, h.closing,
    h.stopped, h.working⟩
  · rw [hruns.launched]
    exact h.attends.enters
  · rw [Dispatcher.gateAt, hruns.gates]
    exact h.attends.wakes gate
  · rw [hruns.visits]
    exact h.attends.resumes

theorem request (h : Going n rest [] clock) (key : String) (task : Task σ ρ ι) :
    Going n rest [] (clock.take (.request key task)) := by
  have hwaiting := h.attends.sound.waiting
  have hsound := h.attends.sound.move (.request key task)
  have hruns := Dispatcher.sameRuns_request hwaiting key task
  have hawaits := h.attends.toAwaits
  have hperm := perm_schedule_plan clock
    ⟨clock.now.time + clock.dispatcher.delay, clock.now.tick + (clock.planned + 1)⟩
      (.endWait clock.dispatcher.made)
    (clock.planned + 1)
  rw [take_request hwaiting]
  have heq : clock.dispatcher.move (.request key task) = _ :=
    Dispatcher.request_eq hwaiting key task
  rw [heq] at hsound ⊢
  refine ⟨h.inTurn.plan _ rfl, ⟨Awaits.perm ⟨fun w hw ↦ ?_, fun time number hmem ↦ ?_⟩ hperm,
    ⟨h.attends.enters, h.attends.wakes⟩, hsound, h.attends.abandoned, h.attends.now, ?_, ?_⟩,
    h.closing, h.stopped,
    h.working⟩
  · rcases List.mem_append.mp hw with hold | hnew
    · exact List.mem_cons_of_mem _ (hawaits.waits w (Dispatcher.mem_othersThan.mp hold).1)
    · rw [List.mem_singleton.mp hnew, h.attends.now]
      exact List.mem_cons_self
  · rcases List.mem_cons.mp hmem with heq | hold
    · obtain ⟨rfl, hnumber⟩ := Prod.mk.inj heq
      obtain rfl := Action.endWait.inj hnumber
      refine ⟨Nat.lt_succ_self _, fun w hw hsame ↦ ?_⟩
      rcases List.mem_append.mp hw with hold | hnew
      · have hlt := hwaiting.lt w (Dispatcher.mem_othersThan.mp hold).1
        omega
      · rw [List.mem_singleton.mp hnew, h.attends.now]
    · obtain ⟨hlt, hdue⟩ := hawaits.dues time number hold
      refine ⟨Nat.lt_succ_of_lt hlt, fun w hw hsame ↦ ?_⟩
      rcases List.mem_append.mp hw with hold | hnew
      · exact hdue w (Dispatcher.mem_othersThan.mp hold).1 hsame
      · rw [List.mem_singleton.mp hnew] at hsame
        simp only at hsame
        omega
  · rw [List.length_append, h.attends.labels]
    rfl
  · refine .trans ((perm_endings hperm).map Prod.fst) ?_
    exact h.attends.resumes

/-- An event happens, with nothing else to be done. -/
theorem take (h : Going n rest [] clock) {event : Event σ ρ ι} (hcall : event.isCall = true) :
    Going n rest [] (clock.take event) ∧ (clock.take event).load < clock.load + 6 := by
  have hwaiting := h.attends.sound.waiting
  cases event with
  | request key task =>
    refine ⟨h.request key task, ?_⟩
    have hload := load_plan
      { clock with
        dispatcher := clock.dispatcher.move (.request key task)
        labels := clock.labels ++ [task.label] }
      ⟨clock.now.time + clock.dispatcher.delay, clock.now.tick + (clock.planned + 1)⟩
        (.endWait clock.dispatcher.made)
      (clock.planned + 1)
    have hvisits : (clock.dispatcher.move (.request key task)).visits = clock.dispatcher.visits :=
      (Dispatcher.sameRuns_request hwaiting key task).visits
    have hsame : { clock with
        dispatcher := clock.dispatcher.move (.request key task)
        labels := clock.labels ++ [task.label] }.load = clock.load := by
      rw [load, load, hvisits]
      rfl
    rw [take_request hwaiting]
    rw [hsame] at hload
    refine Nat.lt_of_le_of_lt (Nat.le_of_eq hload) ?_
    simp only [Action.weight]
    omega
  | cancel key =>
    have hruns := Dispatcher.sameRuns_cancel hwaiting.toHandled key
    obtain ⟨hnow, hmade⟩ := Dispatcher.now_made_cancels hwaiting [key]
    rw [Clock.take, move_eq]
    have hload : { clock with dispatcher := clock.dispatcher.move (.cancel key) }.load
        = clock.load :=
      load_of_visits _ (congrArg _ hruns.visits)
    refine ⟨h.of_sameRuns (h.attends.sound.move (.cancel key)) hruns hnow hmade ?_ ?_ _, ?_⟩
    · rw [Dispatcher.move, Dispatcher.waits_cancel hwaiting.toHandled]
      exact List.filter_subset_self _
    · exact Dispatcher.abandoned_cancels hwaiting [key]
    · exact Nat.lt_of_le_of_lt (Nat.le_of_eq hload) (Nat.lt_add_of_pos_right (by decide))
  | ask key => exact ⟨h.note _, Nat.lt_add_of_pos_right (by decide)⟩
  | setDelay delay =>
    rw [Clock.take, move_of_settled_eq rfl]
    refine ⟨h.of_sameRuns (h.attends.sound.move (.setDelay delay)) ⟨⟨rfl, rfl, rfl, rfl⟩, rfl,
      rfl⟩ rfl rfl
      (List.Subset.refl _) rfl _, ?_⟩
    exact Nat.lt_add_of_pos_right (by decide)
  | _ => cases hcall

end Going

/-! ## Rounds -/

/-- What comes next where events come in turn: time may pass, the first action that is ready is
performed, or time passes and the next event happens. -/
inductive Turn (n : Nat) :
    List (Moment × Event σ ρ ι) × Clock σ ρ ι → List (Moment × Event σ ρ ι) × Clock σ ρ ι → Prop
  | pass {rest : List (Moment × Event σ ρ ι)} {clock clock' : Clock σ ρ ι} :
      Going n rest [] clock' → Passing clock clock' → Turn n (rest, clock) (rest, clock')
  | act {rest : List (Moment × Event σ ρ ι)} {clock clock' : Clock σ ρ ι} :
      Doing clock clock' → Turn n (rest, clock) (rest, clock')
  | take {rest : List (Moment × Event σ ρ ι)} {clock clock' : Clock σ ρ ι} {event : Event σ ρ ι} :
      Going n rest [] clock' → Passing clock clock' → clock'.ready = [] → event.isCall = true →
      Turn n ((clock'.now, event) :: rest, clock) (rest, clock'.take event)

/-- One can come to something in turns. -/
def Turns (n : Nat) : List (Moment × Event σ ρ ι) × Clock σ ρ ι →
    List (Moment × Event σ ρ ι) × Clock σ ρ ι → Prop :=
  Relation.ReflTransGen (Turn n)

namespace Going

variable {n : Nat} {rest : List (Moment × Event σ ρ ι)}

theorem performNext (h : Going n rest [] clock) (hready : clock.ready ≠ []) :
    Doing clock clock.performNext := by
  obtain ⟨action, ready, hfirst⟩ := List.exists_cons_of_ne_nil hready
  refine doing_performNext h.attends.sound h.closing hfirst (h.inTurn.work action ?_)
    fun w hw haction ↦ ?_
  · rw [hfirst]
    exact List.mem_cons_self
  · have hentry : (clock.now.time, .endWait w.number) ∈ clock.schedule := by
      rw [schedule_of_ready hfirst, haction]
      exact List.mem_cons_self
    rw [h.attends.now]
    exact Nat.le_of_eq ((h.attends.dues _ _ hentry).2 w hw rfl)

theorem iterate (h : Going n rest [] clock) (k : Nat) :
    Turns n (rest, clock) (rest, Clock.performNext^[k] clock) ∧
    Going n rest [] (Clock.performNext^[k] clock) ∧
      (Clock.performNext^[k] clock).load ≤ clock.load := by
  induction k generalizing clock with
  | zero => exact ⟨.refl, h, Nat.le_refl _⟩
  | succ k ih =>
    rw [Function.iterate_succ_apply]
    by_cases hready : clock.ready = []
    · have hidle : clock.performNext = clock := by rw [Clock.performNext, hready]
      rw [hidle]
      exact ih h
    · have hdoing := h.performNext hready
      obtain ⟨hturns, hgoing, hload⟩ := ih (h.doing hdoing)
      exact ⟨.head (.act hdoing) hturns, hgoing,
        Nat.le_trans hload (Nat.le_of_lt (load_doing h hdoing))⟩

/-- A round goes on in turns, and makes the work left less if it is not over. -/
theorem round (h : Going n rest [] clock) (hcalls : ∀ e ∈ rest, e.2.isCall = true) :
    ∃ rest', rest' ⊆ rest ∧ Turns n (rest, clock) (rest', clock.round) ∧
    Going n rest' [] clock.round ∧
      (clock.round.isOver = true ∨ clock.round.load < clock.load) := by
  obtain ⟨hdropped, hpassing, hless⟩ := h.dropStale
  have hdrop : Turns n (rest, clock) (rest, clock.dropStale) := .single (.pass hdropped hpassing)
  rw [round_eq]
  obtain ⟨hgoing, hpassing', hload, hnone⟩
    | ⟨m, event, rest', arrived, rfl, hgoing, hpassing', hready, rfl, hevent, hload⟩ :=
        hdropped.advance
  · have hturns := hdrop.tail (.pass hgoing hpassing')
    refine ⟨rest, List.Subset.refl _, ?_⟩
    generalize clock.dropStale.advance = advanced at hgoing hload hnone hturns
    cases hready : advanced.ready with
    | nil =>
      refine ⟨hturns, hgoing, .inl ?_⟩
      rw [List.length_nil, Function.iterate_zero, id_eq, isOver, hready, hnone hready,
        List.isEmpty_nil, Option.isNone_none, Bool.and_true, Bool.or_true]
    | cons action ready =>
      have hdoing := hgoing.performNext (hready ▸ List.cons_ne_nil _ _)
      obtain ⟨hmore, hlast, hleft⟩ := (hgoing.doing hdoing).iterate ready.length
      rw [List.length_cons, Function.iterate_succ_apply]
      have hlt := load_doing hgoing hdoing
      exact ⟨hturns.trans (.head (.act hdoing) hmore), hlast, .inr (by omega)⟩
  · have hcall : event.isCall = true := hcalls (arrived.now, event) List.mem_cons_self
    obtain ⟨htaken, hlt⟩ := hgoing.take hcall
    have hperform : Clock.performNext { arrived with ready := [.event event] }
        = arrived.take event := by
      have hsame : { arrived with ready := [] } = arrived := by rw [← hready]
      rw [Clock.performNext]
      simp only [perform, hsame]
    rw [hevent, List.length_singleton, Function.iterate_one, hperform]
    refine ⟨rest', List.subset_cons_self _ _, hdrop.tail (.take hgoing hpassing' hready hcall),
      htaken, .inr ?_⟩
    omega

/-- **A run goes on in turns until it is over.** -/
theorem run (h : Going n rest [] clock) (hcalls : ∀ e ∈ rest, e.2.isCall = true) (rounds : Nat)
    (hload : clock.load < rounds) :
    ∃ rest', Turns n (rest, clock) (rest', Clock.run rounds clock) ∧
    Going n rest' [] (Clock.run rounds clock) ∧
      (Clock.run rounds clock).isOver = true := by
  induction rounds generalizing clock rest with
  | zero => exact absurd hload (Nat.not_lt_zero _)
  | succ rounds ih =>
    rw [Clock.run]
    split
    · next hover => exact ⟨rest, .refl, h, hover⟩
    · obtain ⟨rest', hsubset, hturns, hgoing, hover | hless⟩ := h.round hcalls
      · have hsame : Clock.run rounds clock.round = clock.round := by
          cases rounds with
          | zero => rfl
          | succ => rw [Clock.run, if_pos hover]
        rw [hsame]
        exact ⟨rest', hturns, hgoing, hover⟩
      · obtain ⟨last, hmore, hlast, hover⟩ :=
          ih hgoing (fun e he ↦ hcalls e (hsubset he)) (by omega)
        exact ⟨last, hturns.trans hmore, hlast, hover⟩

theorem eq_nil_of_isOver (h : Going n rest [] clock) (hover : clock.isOver = true) :
    rest = [] ∧ clock.ready = [] ∧ clock.schedule = [] := by
  rw [isOver, h.stopped, Bool.false_or, Bool.and_eq_true, List.isEmpty_iff,
    Option.isNone_iff_eq_none] at hover
  obtain ⟨hready, hnext⟩ := hover
  have hitems := Agenda.next?_eq_none_iff.mp hnext
  have hevents := h.inTurn.events
  rw [hitems] at hevents
  refine ⟨hevents.symm.eq_nil, hready, ?_⟩
  rw [schedule, hready, hitems]
  rfl

end Going

/-! ## The beginning -/

/-- Events with the moments at which they come, if `planned` entries have been planned before. -/
def placedFrom (planned : Nat) : List (Nat × Event σ ρ ι) → List (Moment × Event σ ρ ι)
  | [] => []
  | (time, event) :: rest => (⟨time, planned + 1⟩, event) :: placedFrom (planned + 1) rest

theorem map_placedFrom (planned : Nat) (events : List (Nat × Event σ ρ ι)) :
    (placedFrom planned events).map (fun e ↦ (e.1.time, e.2)) = events := by
  induction events generalizing planned with
  | nil => rfl
  | cons e rest ih => rw [placedFrom, List.map_cons, ih]

theorem tick_placedFrom {planned : Nat} {events : List (Nat × Event σ ρ ι)}
    {e : Moment × Event σ ρ ι} (h : e ∈ placedFrom planned events) :
    planned < e.1.tick ∧ e.1.tick ≤ planned + events.length := by
  induction events generalizing planned with
  | nil => cases h
  | cons first rest ih =>
    rw [List.length_cons]
    rcases List.mem_cons.mp h with rfl | h
    · simp only
      omega
    · have hrest := ih h
      omega

theorem pairwise_placedFrom (planned : Nat) {events : List (Nat × Event σ ρ ι)}
    (h : events.Pairwise fun a b ↦ a.1 ≤ b.1) :
    (placedFrom planned events).Pairwise fun a b ↦ a.1.before b.1 = true := by
  induction events generalizing planned with
  | nil => exact .nil
  | cons first rest ih =>
    obtain ⟨hfirst, hrest⟩ := List.pairwise_cons.mp h
    refine List.pairwise_cons.mpr ⟨fun e he ↦ ?_, ih _ hrest⟩
    have htime : first.1 ≤ e.1.time := by
      have hmem : (e.1.time, e.2) ∈ rest := by
        rw [← map_placedFrom (planned + 1) rest]
        exact List.mem_map_of_mem he
      exact hfirst _ hmem
    have htick := (tick_placedFrom he).1
    rw [Moment.before_iff]
    simp only
    omega

/-- Events are planned, and nothing else changes. -/
theorem planInTurn_eq (clock : Clock σ ρ ι) (events : List (Nat × Event σ ρ ι))
    (hnow : clock.now = {}) (hheap : clock.agenda.IsHeap) :
    ∃ agenda,
      clock.planInTurn events
        = { clock with agenda, planned := clock.planned + events.length } ∧
      agenda.IsHeap ∧
      agenda.items.Perm
        ((placedFrom clock.planned events).map (fun e ↦ (e.1, .event e.2)) ++
            clock.agenda.items) := by
  induction events generalizing clock with
  | nil => exact ⟨clock.agenda, rfl, hheap, .refl _⟩
  | cons e rest ih =>
    obtain ⟨time, event⟩ := e
    have hplan : clock.planAfter time (.event event) =
        { clock with
          agenda := clock.agenda.insert ⟨time, clock.planned + 1⟩ (.event event)
          planned := clock.planned + 1 } := by
      rw [planAfter, hnow]
      simp only [Nat.zero_add]
    obtain ⟨agenda, heq, hheap', hperm⟩ := ih (clock.planAfter time (.event event)) hnow
      (by rw [hplan]; exact hheap.insert _ _)
    rw [hplan] at heq hperm
    have hfirst : clock.planInTurn ((time, event) :: rest)
        = (clock.planAfter time (.event event)).planInTurn rest := rfl
    refine ⟨agenda, ?_, hheap', hperm.trans ?_⟩
    · rw [hfirst, hplan, heq, List.length_cons]
      simp only [Nat.add_assoc, Nat.add_comm 1]
    · exact ((clock.agenda.perm_insert _ _).append_left _).trans List.perm_middle

theorem ofState_eq (state : σ) (delay : Nat) :
    (ofState state delay : Clock σ ρ ι) = { state, dispatcher := { delay } } :=
      move_of_settled_eq rfl

/-- A clock at the beginning, where some events are to come. -/
theorem going_planInTurn (state : σ) (delay : Nat) {events : List (Nat × Event σ ρ ι)}
    (h : events.Pairwise fun a b ↦ a.1 ≤ b.1) :
    Going events.length (placedFrom 0 events) [] ((ofState state delay).planInTurn events) ∧
      ((ofState state delay).planInTurn events).load = 6 * events.length := by
  obtain ⟨agenda, heq, hheap, hperm⟩ :=
    planInTurn_eq ({ state, dispatcher := { delay } } : Clock σ ρ ι) events rfl Agenda.isHeap_empty
  replace hperm : agenda.items.Perm ((placedFrom 0 events).map fun e ↦ (e.1, .event e.2)) := by
    rw [← List.append_nil ((placedFrom 0 events).map _)]
    exact hperm
  rw [ofState_eq, heq]
  have hplanned : ((placedFrom 0 events).map fun e ↦ (e.1, (.event e.2 : Action σ ρ ι))).filterMap
    plannedEvent?
      = placedFrom 0 events := by
    rw [List.filterMap_map]
    exact List.filterMap_some
  have hevent : ∀ e ∈ agenda.items, ∃ placed ∈ placedFrom 0 events,
      e = (placed.1, .event placed.2) := by
    intro e he
    obtain ⟨placed, hplaced, rfl⟩ := List.mem_map.mp (hperm.subset he)
    exact ⟨placed, hplaced, rfl⟩
  refine ⟨⟨⟨hheap, fun e he ↦ ?_, ?_, pairwise_placedFrom 0 h, fun e he ↦ ?_,
    fun e he hnone ↦ ?_, ?_, by rintro _ ⟨⟩, ?_⟩, ⟨⟨by rintro _ ⟨⟩, fun time number hmem ↦ ?_⟩,
      ⟨Nat.le_refl _, fun gate _ hqueue ↦ absurd rfl hqueue⟩,
      Dispatcher.sound_empty.move (.setDelay delay), rfl, rfl, rfl, ?_⟩, rfl, rfl,
      fun hne ↦ absurd rfl hne⟩, ?_⟩
  · obtain ⟨placed, hplaced, rfl⟩ := hevent e he
    have htick := (tick_placedFrom hplaced).1
    rw [Moment.before_iff]
    simp only
    omega
  · exact (hperm.filterMap _).trans (.of_eq hplanned)
  · have htick := (tick_placedFrom he).2
    omega
  · obtain ⟨_, -, rfl⟩ := hevent e he
    cases hnone
  · exact Nat.le_add_left _ _
  · exact fun hne ↦ absurd rfl hne
  · obtain ⟨e, he, heq⟩ := List.mem_map.mp hmem
    obtain ⟨_, -, rfl⟩ := hevent e he
    cases (Prod.mk.inj heq).2
  · rw [List.nil_append]
    refine .of_eq (List.map_eq_nil_iff.mpr (List.filterMap_eq_nil_iff.mpr fun entry hentry ↦ ?_))
    obtain ⟨e, he, rfl⟩ := List.mem_map.mp hentry
    obtain ⟨_, -, rfl⟩ := hevent e he
    rfl
  · have hweights : ((agenda.items.map fun e ↦ (e.1.time, e.2)).map (·.2.weight)).sum
        = 6 * events.length := by
      rw [List.map_map, (hperm.map _).sum_nat, List.map_map]
      have hsix : ((fun e : Nat × Action σ ρ ι ↦ e.2.weight)
        ∘ (fun e : Moment × Action σ ρ ι ↦ (e.1.time, e.2))) ∘
          (fun e : Moment × Event σ ρ ι ↦ (e.1, .event e.2)) = fun _ ↦ 6 := rfl
      have hlength := congrArg List.length (map_placedFrom 0 events)
      rw [hsix, List.map_const', List.sum_replicate_nat, ← List.length_map, hlength, Nat.mul_comm]
    exact hweights

/-- **When events have been run through, it is over.** -/
theorem going_runThrough (state : σ) (delay : Nat) {events : List (Nat × Event σ ρ ι)}
    (h : events.Pairwise fun a b ↦ a.1 ≤ b.1) (hcalls : ∀ e ∈ events, e.2.isCall = true) :
    Turns events.length (placedFrom 0 events, (ofState state delay).planInTurn events)
        ([], (ofState state delay).runThrough events) ∧
      Going events.length [] [] ((ofState state delay).runThrough events) ∧
      ((ofState state delay).runThrough events).isOver = true := by
  obtain ⟨hgoing, hload⟩ := going_planInTurn state delay h
  have hplaced : ∀ e ∈ placedFrom 0 events, e.2.isCall = true := by
    intro e he
    refine hcalls (e.1.time, e.2) ?_
    rw [← map_placedFrom 0 events]
    exact List.mem_map_of_mem he
  have henough : ((ofState state delay).planInTurn events).load < enoughRounds events.length := by
    rw [hload, enoughRounds]
    omega
  obtain ⟨rest, hturns, hlast, hover⟩ := hgoing.run hplaced (enoughRounds events.length) henough
  obtain ⟨rfl, -, -⟩ := hlast.eq_nil_of_isOver hover
  exact ⟨hturns, hlast, hover⟩

end Clock

end MissionIndex.Schedule
