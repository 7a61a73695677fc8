import MissionIndex.Proofs.Schedule.Course

/-!
# Going through events in turn

A clock that goes through events, with tasks that ask nothing of the dispatcher. The events come one
at a time, each before anything else that is due at its time, and nothing is ready then (`InTurn`).
For each wait, and for each task that has started, the end is planned, for each run that has been
launched its first step is ready, and whoever may pass a gate is about to (`Attends`). What an
action does is said once (`Doing`).
-/

namespace MissionIndex.Schedule

variable {σ ρ ι : Type}

/-- Whether an event is a call that neither closes nor changes the state. -/
def Event.isCall : Event σ ρ ι → Bool
  | .request .. | .cancel _ | .ask _ | .setDelay _ => true
  | _ => false

namespace Action

def event? : Action σ ρ ι → Option (Event σ ρ ι)
  | .event e => some e
  | _ => none

def resume? : Action σ ρ ι → Option (Run (Task σ ρ ι))
  | .resume run => some run
  | _ => none

/-- Whether an action is planned by a request or by a run. -/
def isTimer : Action σ ρ ι → Bool
  | .endWait _ | .resume _ => true
  | _ => false

/-- Whether an action makes a run go on. -/
def isWork : Action σ ρ ι → Bool
  | .endWait _ | .enter | .wake _ | .resume _ | .noticeEnd _ => true
  | _ => false

def isEnter : Action σ ρ ι → Bool
  | .enter => true
  | _ => false

theorem isWork_of_isTimer {action : Action σ ρ ι} (h : action.isTimer = true) :
    action.isWork = true := by
  cases action <;> first | rfl | cases h

end Action

theorem Moment.eq_of_not_before {a b : Moment} (hab : a.before b = false)
    (hba : b.before a = false) : a = b := by
  rw [Moment.not_before_iff] at hab hba
  obtain ⟨ta, ka⟩ := a
  obtain ⟨tb, kb⟩ := b
  simp only [Moment.mk.injEq] at *
  omega

namespace Dispatcher

variable {τ : Type} {d : Dispatcher τ ρ} {run : Run τ}

/-- What the end of a task changes. -/
structure Finished (d d' : Dispatcher τ ρ) (run : Run τ) (gate : Nat)
    (before after : List (Visit τ)) (ending : Ending ρ) : Prop extends SameWaiting d d' where
  split : d.visits = before ++ ⟨run, gate, true⟩ :: after
  visits : d'.visits = before ++ after
  launched : d'.launched = d.launched
  gates : ∀ other, d'.gateAt other = if gate = other then { d.gateAt gate with isHeld := false }
    else d.gateAt other
  gateOf : d.gateOf.lookup run.key = some gate
  abandoned : d'.abandoned = d.abandoned
  settled : d'.settled = d.settled ++ ending.settled (run.answers.filter (!d.isSettled ·))
  log : d'.log = d.log ++ [(d.now, .ended run ending)]
  delay : d'.delay = d.delay

theorem Finished.inProgress {d' : Dispatcher τ ρ} {gate : Nat} {before after : List (Visit τ)}
    {ending : Ending ρ} (h : Finished d d' run gate before after ending) :
    run ∈ d.inProgress ∧ d'.inProgress ⊆ d.inProgress := by
  rw [Dispatcher.inProgress, Dispatcher.inProgress, h.split, h.launched, h.visits]
  simp only [List.map_append, List.map_cons]
  refine ⟨List.mem_append_right _ (List.mem_append_right _ List.mem_cons_self),
    fun other hother ↦ ?_⟩
  simp only [List.mem_append, List.mem_cons] at hother ⊢
  tauto

theorem exists_finished (h : d.Sound)
    (hrun : run ∈ (d.visits.filter (·.isRunning)).map Visit.run) (ending : Ending ρ) :
    ∃ gate before after,
      Finished d (d.finish run.number ending) run gate before after ending := by
  obtain ⟨v, hv, rfl⟩ := List.mem_map.mp hrun
  obtain ⟨hv, hrunning⟩ := List.mem_filter.mp hv
  obtain ⟨-, hnone⟩ | ⟨before, u, after, hsplit, hnumber, -, heq⟩ :=
    finish_cases h.accounts v.run.number ending
  · rw [hnone v hv rfl] at hrunning
    cases hrunning
  · obtain rfl := List.inj_on_of_nodup_map h.accounts.nodup_visits
      (hsplit ▸ List.mem_append_right _ List.mem_cons_self) hv hnumber
    have hgate := h.gated.gate u hv
    obtain ⟨-, hlt, -⟩ := h.gated.line _ _ hgate
    have hnodup : u.run.answers.Nodup :=
      h.accounts.nodup_answers (List.mem_append_right _ (List.mem_map_of_mem hv))
    have hu : u = ⟨u.run, u.gate, true⟩ := by
      rw [← hrunning]
    -- What the run leaves behind is as it says; to answer requests changes what is settled only.
    generalize hleft : note _ (Mark.ended u.run ending) = left at heq
    obtain ⟨users, gateOf, hrelease⟩ := release_eq left u.run.key
    have hsettled := settled_answer (left.release u.run.key) hnodup ending
    obtain ⟨settled, hanswer⟩ := answer_eq (left.release u.run.key) u.run.answers ending
    rw [← heq] at hsettled hanswer
    rw [hrelease, ← hleft] at hsettled hanswer
    refine ⟨u.gate, before, after, sameWaiting_finish d u.run.number ending, hu ▸ hsplit, ?_, ?_,
      fun other ↦ ?_, hgate, ?_, hsettled, ?_, ?_⟩
    · rw [hanswer]
      rfl
    · rw [hanswer]
      rfl
    · rw [hanswer]
      exact gateAt_set hlt _ other
    · rw [hanswer]
      rfl
    · rw [hanswer]
      rfl
    · rw [hanswer]
      rfl

end Dispatcher

namespace Clock

/-! ## The order of things -/

def plannedEvent? (e : Moment × Action σ ρ ι) : Option (Moment × Event σ ρ ι) :=
  e.2.event?.map (e.1, ·)

/-- Events come in turn. Their ticks are those up to `n`, and those of all that is planned later are
greater. -/
structure InTurn (n : Nat) (rest : List (Moment × Event σ ρ ι)) (now : Moment)
    (agenda : Agenda (Action σ ρ ι)) (planned : Nat) (ready : List (Action σ ρ ι)) : Prop where
  isHeap : agenda.IsHeap
  later : ∀ e ∈ agenda.items, now.before e.1 = true
  events : (agenda.items.filterMap plannedEvent?).Perm rest
  sorted : rest.Pairwise fun a b ↦ a.1.before b.1 = true
  ticks : ∀ e ∈ rest, e.1.tick ≤ n
  timers : ∀ e ∈ agenda.items, e.2.event? = none → n < e.1.tick ∧ e.2.isTimer = true
  planned : n ≤ planned
  work : ∀ action ∈ ready, action.isWork = true
  tick : ready ≠ [] → n < now.tick

namespace InTurn

variable {n planned : Nat} {rest : List (Moment × Event σ ρ ι)} {now due : Moment}
  {agenda agenda' : Agenda (Action σ ρ ι)} {ready : List (Action σ ρ ι)} {action : Action σ ρ ι}

theorem withReady (h : InTurn n rest now agenda planned ready) {ready' : List (Action σ ρ ι)}
    (hwork : ∀ action ∈ ready', action.isWork = true) (htick : ready' ≠ [] → n < now.tick) :
    InTurn n rest now agenda planned ready' :=
  ⟨h.isHeap, h.later, h.events, h.sorted, h.ticks, h.timers, h.planned, hwork, htick⟩

theorem plan (h : InTurn n rest now agenda planned ready) (delay : Nat)
    (htimer : action.isTimer = true) :
    InTurn n rest now (agenda.insert ⟨now.time + delay, now.tick + (planned + 1)⟩ action) (planned +
      1) ready := by
  have hperm := agenda.perm_insert ⟨now.time + delay, now.tick + (planned + 1)⟩ action
  have hevent : action.event? = none := by cases action <;> first | rfl | cases htimer
  refine ⟨h.isHeap.insert _ _, fun e he ↦ ?_, ?_, h.sorted, h.ticks, fun e he hnone ↦ ?_,
    Nat.le_succ_of_le h.planned, h.work, h.tick⟩
  · rcases List.mem_cons.mp (hperm.subset he) with rfl | hold
    · rw [Moment.before_iff]
      simp only
      omega
    · exact h.later e hold
  · refine (hperm.filterMap _).trans ?_
    rw [List.filterMap_cons, plannedEvent?, hevent]
    exact h.events
  · rcases List.mem_cons.mp (hperm.subset he) with rfl | hold
    · have hle := h.planned
      refine ⟨?_, htimer⟩
      simp only
      omega
    · exact h.timers e hold hnone

theorem drop (h : InTurn n rest now agenda planned ready) {taken : List (Moment × Action σ ρ ι)}
    (hperm : (taken ++ agenda'.items).Perm agenda.items) (hheap : agenda'.IsHeap)
    (htaken : ∀ e ∈ taken, e.2.event? = none) : InTurn n rest now agenda' planned ready := by
  have hsubset : ∀ e ∈ agenda'.items, e ∈ agenda.items := fun e he ↦
    hperm.subset (List.mem_append_right _ he)
  have hnone : taken.filterMap plannedEvent? = [] := by
    refine List.filterMap_eq_nil_iff.mpr fun e he ↦ ?_
    rw [plannedEvent?, htaken e he]
    rfl
  refine ⟨hheap, fun e he ↦ h.later e (hsubset e he), ?_, h.sorted, h.ticks,
    fun e he ↦ h.timers e (hsubset e he), h.planned, h.work, h.tick⟩
  have hevents := hperm.filterMap plannedEvent?
  rw [List.filterMap_append, hnone, List.nil_append] at hevents
  exact hevents.trans h.events

/-- What is due next comes out of the agenda together with all that is due at the same moment. -/
theorem exists_due (h : InTurn n rest now agenda planned ready)
    (hnext : agenda.next? = some (due, action)) :
    ∃ taken, taken.map Prod.snd = (agenda.span fun moment _ ↦ !due.before moment).1 ∧
      (taken ++ (agenda.span fun moment _ ↦ !due.before moment).2.items).Perm agenda.items ∧
      (agenda.span fun moment _ ↦ !due.before moment).2.IsHeap ∧ (due, action) ∈ taken ∧
      (∀ e ∈ taken, e.1 = due) ∧
      ∀ e ∈ (agenda.span fun moment _ ↦ !due.before moment).2.items, due.before e.1 = true := by
  obtain ⟨taken, htaken, hparts⟩ := Agenda.exists_span (fun moment _ ↦ !due.before moment) agenda
  generalize (agenda.span fun moment _ ↦ !due.before moment).2 = left at hparts
  have hlater : ∀ e ∈ left.items, due.before e.1 = true := by
    intro e he
    cases hfirst : left.next? with
    | none =>
      rw [Agenda.next?_eq_none_iff.mp hfirst] at he
      cases he
    | some first =>
      have hbefore : due.before first.1 = true := by simpa using hparts.stops first hfirst
      have hnot := (hparts.isHeap h.isHeap).not_before_next hfirst he
      rw [Moment.before_iff] at hbefore ⊢
      rw [Moment.not_before_iff] at hnot
      omega
  have hself : due.before due = false := by rw [Moment.not_before_iff]; omega
  refine ⟨taken, htaken, hparts.perm, hparts.isHeap h.isHeap, ?_, fun e he ↦ ?_, hlater⟩
  · have hmem : (due, action) ∈ agenda.items := by
      refine List.mem_of_getElem? (i := 0) ?_
      rw [Agenda.items, Array.getElem?_toList]
      exact hnext
    refine (List.mem_append.mp (hparts.perm.symm.subset hmem)).resolve_right fun hleft ↦ ?_
    have hbefore := hlater _ hleft
    rw [hself] at hbefore
    cases hbefore
  · have hnot : due.before e.1 = false := by simpa using hparts.holds e he
    exact Moment.eq_of_not_before
      (h.isHeap.not_before_next hnext (hparts.perm.subset (List.mem_append_left _ he))) hnot

/-- What a run or a request has planned becomes due. -/
theorem timers_due (h : InTurn n rest now agenda planned [])
    (hnext : agenda.next? = some (due, action)) (hnone : action.event? = none) :
    InTurn n rest due (agenda.span fun moment _ ↦ !due.before moment).2 planned
      (agenda.span fun moment _ ↦ !due.before moment).1 := by
  obtain ⟨taken, htaken, hperm, hheap, hmem, hsame, hlater⟩ := h.exists_due hnext
  have hsubset : ∀ e ∈ taken, e ∈ agenda.items :=
    fun e he ↦ hperm.subset (List.mem_append_left _ he)
  have hlt : n < due.tick := (h.timers _ (hsubset _ hmem) hnone).1
  have hnoEvent : ∀ e ∈ taken, e.2.event? = none := by
    intro e he
    by_contra hevent
    obtain ⟨event, hevent⟩ := Option.ne_none_iff_exists'.mp hevent
    have hrest : (e.1, event) ∈ rest :=
      h.events.subset (List.mem_filterMap.mpr ⟨e, hsubset e he, by rw [plannedEvent?, hevent]; rfl⟩)
    have hle := h.ticks _ hrest
    rw [hsame e he] at hle
    omega
  have hdropped := h.drop hperm hheap hnoEvent
  refine ⟨hheap, hlater, hdropped.events, h.sorted, h.ticks, hdropped.timers, h.planned,
    fun a ha ↦ ?_, fun _ ↦ hlt⟩
  rw [← htaken] at ha
  obtain ⟨e, he, rfl⟩ := List.mem_map.mp ha
  exact Action.isWork_of_isTimer (h.timers e (hsubset e he) (hnoEvent e he)).2

/-- An event becomes due. It is the first of those to come, and nothing else is due. -/
theorem event_due (h : InTurn n rest now agenda planned []) {event : Event σ ρ ι}
    (hnext : agenda.next? = some (due, .event event)) :
    (agenda.span fun moment _ ↦ !due.before moment).1 = [.event event] ∧
      ((due, .event event) :: (agenda.span fun moment _ ↦ !due.before moment).2.items).Perm
        agenda.items ∧
      ∃ rest', rest = (due, event) :: rest' ∧
        InTurn n rest' due (agenda.span fun moment _ ↦ !due.before moment).2 planned [] := by
  obtain ⟨taken, htaken, hperm, hheap, hmem, hsame, hlater⟩ := h.exists_due hnext
  generalize (agenda.span fun moment _ ↦ !due.before moment).2 = left at hperm hheap hlater
  obtain ⟨others, hothers⟩ : ∃ others, taken.Perm ((due, .event event) :: others) := by
    obtain ⟨before, after, rfl⟩ := List.append_of_mem hmem
    exact ⟨before ++ after, List.perm_middle⟩
  have hself : due.before due = false := by rw [Moment.not_before_iff]; omega
  have hevents : ((due, event) :: (others ++ left.items).filterMap plannedEvent?).Perm rest := by
    refine .trans ?_ h.events
    have hperm' := ((hothers.append_right left.items).symm.trans hperm).filterMap plannedEvent?
    exact hperm'
  have hfirst : (due, event) ∈ rest := hevents.subset List.mem_cons_self
  have hle : due.tick ≤ n := h.ticks _ hfirst
  have hnotBefore : ∀ e ∈ (others ++ left.items).filterMap plannedEvent?, e.1.before due
      = false := by
    intro e he
    obtain ⟨entry, hentry, heq⟩ := List.mem_filterMap.mp he
    obtain ⟨_, -, rfl⟩ := Option.map_eq_some_iff.mp heq
    refine h.isHeap.not_before_next hnext (hperm.subset ?_)
    exact (hothers.append_right left.items).symm.subset (List.mem_cons_of_mem _ hentry)
  obtain ⟨rest', rfl⟩ : ∃ rest', rest = (due, event) :: rest' := by
    cases rest with
    | nil => cases hfirst
    | cons first rest' =>
      rcases List.mem_cons.mp hfirst with rfl | htail
      · exact ⟨rest', rfl⟩
      · have hbefore := (List.pairwise_cons.mp h.sorted).1 _ htail
        rcases List.mem_cons.mp (hevents.symm.subset List.mem_cons_self) with rfl | hother
        · rw [hself] at hbefore
          cases hbefore
        · rw [hnotBefore _ hother] at hbefore
          cases hbefore
  have hrest := hevents.cons_inv
  have hnone : others = [] := by
    refine List.eq_nil_iff_forall_not_mem.mpr fun e he ↦ ?_
    have htaken : e ∈ taken := hothers.symm.subset (List.mem_cons_of_mem _ he)
    have hitem : e ∈ agenda.items := hperm.subset (List.mem_append_left _ htaken)
    cases hevent : e.2.event? with
    | none =>
      have hlt := (h.timers e hitem hevent).1
      rw [hsame e htaken] at hlt
      omega
    | some other =>
      have hmem : (e.1, other) ∈ rest' := hrest.subset
        (List.mem_filterMap.mpr ⟨e, List.mem_append_left _ he, by rw [plannedEvent?, hevent]; rfl⟩)
      have hbefore := (List.pairwise_cons.mp h.sorted).1 _ hmem
      rw [hsame e htaken, hself] at hbefore
      cases hbefore
  subst hnone
  obtain rfl := hothers.eq_singleton
  refine ⟨htaken.symm, hperm, rest', rfl, hheap, hlater, hrest, (List.pairwise_cons.mp h.sorted).2,
    fun e he ↦ h.ticks e (List.mem_cons_of_mem _ he), fun e he ↦ ?_, h.planned, by rintro _ ⟨⟩,
    fun hne ↦ absurd rfl hne⟩
  exact h.timers e (hperm.subset (List.mem_cons_of_mem _ he))

end InTurn

/-! ## What an action does -/

variable {clock clock' : Clock σ ρ ι}

theorem move_of_settled_eq {m : Move (Task σ ρ ι) ρ}
    (h : (clock.dispatcher.move m).settled = clock.dispatcher.settled) :
    clock.move m = { clock with dispatcher := clock.dispatcher.move m } := by
  rw [move_eq, news, h, List.drop_length, List.filterMap_nil, List.append_nil]

/-- By which action, and by which move of the dispatcher, a run starts. -/
inductive Starts (d : Dispatcher (Task σ ρ ι) ρ) (run : Run (Task σ ρ ι)) :
    Action σ ρ ι → Move (Task σ ρ ι) ρ → Prop
  /-- The run has been launched first and finds no line. -/
  | enter {launched : List (Run (Task σ ρ ι))} :
  d.launched = run :: launched → d.gateOf.lookup run.key = none →
      d.move .enter =
        { d with
          launched
          users := Ordered.put run.key 1 d.users
          gateOf := Ordered.put run.key d.gates.length d.gateOf
          gates := d.gates ++ [⟨true, []⟩]
          visits := d.visits ++ [⟨run, d.gates.length, true⟩]
          log := d.log ++ [(d.now, .started run)] } → Starts d run .enter .enter
  /-- The run is the first in its line, and nobody in line has started. -/
  | wake {before after : List (Visit (Task σ ρ ι))} {gate : Nat} :
      d.visits = before ++ ⟨run, gate, false⟩ :: after →
      (∀ u ∈ d.line run.key, u.isRunning = false) →
      before.filter (·.run.key == run.key) = [] →
      d.move (.wake gate) =
        { d with
          gates := d.gates.set gate ⟨true, (after.filter (·.run.key == run.key)).map (·.run.number)⟩
          visits := before ++ ⟨run, gate, true⟩ :: after
          log := d.log ++ [(d.now, .started run)] } → Starts d run (.wake gate) (.wake gate)

/-- What the first action that is ready does, where nobody closes and the waits that end are
over. -/
inductive Doing (clock : Clock σ ρ ι) : Clock σ ρ ι → Prop
  | nothing {action : Action σ ρ ι} {ready : List (Action σ ρ ι)} :
      clock.ready = action :: ready → action.resume? = none →
      (∀ w ∈ clock.dispatcher.waits, action ≠ .endWait w.number) →
      (action = .enter → clock.dispatcher.launched = []) →
      (∀ gate, action = .wake gate →
        (clock.dispatcher.gateAt gate).isHeld = true ∨ (clock.dispatcher.gateAt gate).queue = []) →
      Doing clock { clock with ready }
  /-- A wait ends, and a run is launched. -/
  | launch {ready : List (Action σ ρ ι)} {w : Wait (Task σ ρ ι)} {earlier : List Nat} :
      clock.ready = .endWait w.number :: ready →
      w ∈ clock.dispatcher.waits → w.due = clock.dispatcher.now →
      clock.dispatcher.waiters.lookup w.key = some (earlier ++ [w.number]) →
      clock.dispatcher.move (.endWait w.number) =
        { clock.dispatcher with
          handles := (clock.dispatcher.othersThan w.key).map Dispatcher.handleOf
          waits := clock.dispatcher.othersThan w.key
          waiters := Ordered.erase w.key clock.dispatcher.waiters
          launched := clock.dispatcher.launched ++
            [⟨w.number, w.key, w.task, earlier ++ [w.number]⟩]
          log := clock.dispatcher.log ++
            [(clock.dispatcher.now, .launched ⟨w.number, w.key, w.task, earlier ++ [w.number]⟩)] } →
      Doing clock
        { clock with
          dispatcher := clock.dispatcher.move (.endWait w.number)
          ready := ready ++ [.enter] }
  /-- A run goes to the end of its line. -/
  | join {ready : List (Action σ ρ ι)} {run : Run (Task σ ρ ι)} {launched : List (Run (Task σ ρ ι))}
      {gate : Nat} :
      clock.ready = .enter :: ready →
      clock.dispatcher.launched = run :: launched →
      clock.dispatcher.gateOf.lookup run.key = some gate →
      clock.dispatcher.move .enter =
        { clock.dispatcher with
          launched
          users := Ordered.put run.key ((clock.dispatcher.line run.key).length + 1 : Int)
            clock.dispatcher.users
          gates := clock.dispatcher.gates.set gate
            { clock.dispatcher.gateAt gate with
              queue := (clock.dispatcher.gateAt gate).queue ++ [run.number] }
          visits := clock.dispatcher.visits ++ [⟨run, gate, false⟩] } →
      Doing clock { clock with dispatcher := clock.dispatcher.move .enter, ready }
  | start {action : Action σ ρ ι} {ready : List (Action σ ρ ι)} {run : Run (Task σ ρ ι)}
      {m : Move (Task σ ρ ι) ρ} :
      clock.ready = action :: ready →
      Starts clock.dispatcher run action m →
      Doing clock ({ clock with dispatcher := clock.dispatcher.move m, ready }.start run)
  | finish {ready : List (Action σ ρ ι)} {run : Run (Task σ ρ ι)} :
      clock.ready = .resume run :: ready →
      Doing clock ({ clock with ready }.finish run)

section Doing

variable {action : Action σ ρ ι} {ready : List (Action σ ρ ι)}

theorem moveOn_of_settled_eq {m : Move (Task σ ρ ι) ρ}
    (hsettled : (clock.dispatcher.move m).settled = clock.dispatcher.settled)
    (hlog : (clock.dispatcher.move m).log = clock.dispatcher.log) :
    clock.moveOn m = { clock with dispatcher := clock.dispatcher.move m } := by
  rw [moveOn_of_log_eq hlog, move_of_settled_eq hsettled]

theorem moveOn_of_started_of_settled_eq {m : Move (Task σ ρ ι) ρ} {run : Run (Task σ ρ ι)}
    {time : Nat} (hsettled : (clock.dispatcher.move m).settled = clock.dispatcher.settled)
    (hlog : (clock.dispatcher.move m).log = clock.dispatcher.log ++ [(time, .started run)]) :
    clock.moveOn m = { clock with dispatcher := clock.dispatcher.move m }.start run := by
  rw [moveOn_of_started hlog, move_of_settled_eq hsettled]

theorem doing_endWait {number : Nat} (h : clock.dispatcher.Waiting)
    (hready : clock.ready = .endWait number :: ready)
    (hdue : ∀ w ∈ clock.dispatcher.waits, w.number = number → w.due ≤ clock.dispatcher.now) :
    Doing clock ({ clock with ready }.perform (.endWait number)) := by
  obtain ⟨hsame, hlt⟩ | ⟨w, hw, earlier, rfl, hnow, hlookup, heq⟩ :=
    Dispatcher.endWait_cases h number
  · have hnone : ∀ w ∈ clock.dispatcher.waits, w.number ≠ number := fun w hw hnumber ↦
      absurd (hlt w hw hnumber) (Nat.not_lt.mpr (hdue w hw hnumber))
    have hwaiting : clock.dispatcher.isWaiting number = false :=
      List.any_eq_false.mpr fun w hw hnumber ↦ hnone w hw (beq_iff_eq.mp hnumber)
    have hmove : { clock with ready }.move (.endWait number) = { clock with ready } := by
      rw [move_of_settled_eq (by rw [Dispatcher.move, hsame])]
      simp only [Dispatcher.move, hsame]
    have hperform : { clock with ready }.perform (.endWait number) = { clock with ready } := by
      rw [perform, hmove]
      simp only [hwaiting, Bool.false_eq_true, if_false]
    rw [hperform]
    refine .nothing hready rfl (fun w hw heq ↦ hnone w hw ?_) (by rintro ⟨⟩) (by rintro _ ⟨⟩)
    exact (Action.endWait.inj heq).symm
  · have hwaiting : clock.dispatcher.isWaiting w.number = true :=
      List.any_eq_true.mpr ⟨w, hw, beq_self_eq_true _⟩
    have hperform : { clock with ready }.perform (.endWait w.number) =
        { clock with
          dispatcher := clock.dispatcher.move (.endWait w.number)
          ready := ready ++ [.enter] } := by
      rw [perform, move_of_settled_eq (by rw [Dispatcher.move, heq]; rfl)]
      simp only [hwaiting, if_true]
      rfl
    rw [hperform]
    exact .launch hready hw hnow hlookup heq

theorem doing_enter (h : clock.dispatcher.Gated) (hready : clock.ready = .enter :: ready) :
    Doing clock ({ clock with ready }.perform .enter) := by
  obtain ⟨hnone, heq⟩ | ⟨run, launched, hlaunched, ⟨gate, hgate, heq⟩ | ⟨hgate, heq⟩⟩ :=
    Dispatcher.enter_cases h
  · have hperform : { clock with ready }.perform .enter = { clock with ready } := by
      rw [perform, moveOn_of_settled_eq (by rw [Dispatcher.move, heq])
        (by rw [Dispatcher.move, heq])]
      simp only [Dispatcher.move, heq]
    rw [hperform]
    exact .nothing hready rfl (by rintro _ _ ⟨⟩) (fun _ ↦ hnone) (by rintro _ ⟨⟩)
  · have hperform : { clock with ready }.perform .enter =
        { clock with dispatcher := clock.dispatcher.move .enter, ready } :=
      moveOn_of_settled_eq (by rw [Dispatcher.move, heq]) (by rw [Dispatcher.move, heq])
    rw [hperform]
    exact .join hready hlaunched hgate heq
  · have hperform : { clock with ready }.perform .enter =
        { clock with dispatcher := clock.dispatcher.move .enter, ready }.start run :=
      moveOn_of_started_of_settled_eq (by rw [Dispatcher.move, heq]; rfl)
      (by rw [Dispatcher.move, heq]; rfl)
    rw [hperform]
    exact .start hready (.enter hlaunched hgate heq)

theorem doing_wake {gate : Nat} (h : clock.dispatcher.Sound)
    (hready : clock.ready = .wake gate :: ready) :
    Doing clock ({ clock with ready }.perform (.wake gate)) := by
  obtain ⟨heq, hpassed⟩ | ⟨before, v, after, hvisits, rfl, hline, hbefore, heq⟩ :=
    Dispatcher.wake_cases h.gated h.accounts.nodup_visits gate
  · have hperform : { clock with ready }.perform (.wake gate) = { clock with ready } := by
      rw [perform, moveOn_of_settled_eq (by rw [Dispatcher.move, heq])
        (by rw [Dispatcher.move, heq])]
      simp only [Dispatcher.move, heq]
    rw [hperform]
    refine .nothing hready rfl (by rintro _ _ ⟨⟩) (by rintro ⟨⟩) fun other hother ↦ ?_
    rw [← Action.wake.inj hother]
    exact hpassed
  · have hperform : { clock with ready }.perform (.wake v.gate) =
        { clock with dispatcher := clock.dispatcher.move (.wake v.gate), ready }.start v.run :=
      moveOn_of_started_of_settled_eq (by rw [Dispatcher.move, heq]; rfl)
      (by rw [Dispatcher.move, heq]; rfl)
    rw [hperform]
    have hwaits : v.isRunning = false :=
      hline v (Dispatcher.mem_line.mpr ⟨hvisits ▸ List.mem_append_right _ List.mem_cons_self, rfl⟩)
    have hv : v = ⟨v.run, v.gate, false⟩ := by rw [← hwaits]
    exact .start hready (.wake (hv ▸ hvisits) hline hbefore heq)

/-- **What an action does.** -/
theorem doing_performNext (h : clock.dispatcher.Sound) (hclosing : clock.closing = [])
    (hready : clock.ready = action :: ready) (hwork : action.isWork = true)
    (hdue : ∀ w ∈ clock.dispatcher.waits, action = .endWait w.number →
      w.due ≤ clock.dispatcher.now) :
    Doing clock clock.performNext := by
  have hnext : clock.performNext = { clock with ready }.perform action := by
    rw [performNext, hready]
  rw [hnext]
  cases action with
  | endWait number => exact doing_endWait h.waiting hready fun w hw hnumber ↦ hdue w hw (by
      rw [hnumber])
  | enter => exact doing_enter h.gated hready
  | wake gate => exact doing_wake h hready
  | resume run => exact .finish hready
  | noticeEnd number =>
    have hperform : { clock with ready }.perform (.noticeEnd number) = { clock with ready } := by
      rw [perform, noticeEnd_eq]
      simp only [hclosing, leftOf, lastWaiting, List.map_nil, List.filter_nil, List.zip_nil_left,
        List.append_nil]
    rw [hperform]
    exact .nothing hready rfl (by rintro _ _ ⟨⟩) (by rintro ⟨⟩) (by rintro _ ⟨⟩)
  | _ => cases hwork

end Doing

/-! ## What is minded -/

/-- What is ready and what is planned, with the times at which it comes. -/
def schedule (clock : Clock σ ρ ι) : List (Nat × Action σ ρ ι) :=
  clock.ready.map (clock.now.time, ·) ++ clock.agenda.items.map fun e ↦ (e.1.time, e.2)

/-- The runs that are to end, with the times. -/
def endings (schedule : List (Nat × Action σ ρ ι)) : List (Run (Task σ ρ ι) × Nat) :=
  schedule.filterMap fun e ↦ e.2.resume?.map (·, e.1)

/-- The end of each wait is planned, for the time when it is over. -/
structure Awaits (d : Dispatcher (Task σ ρ ι) ρ) (schedule : List (Nat × Action σ ρ ι)) : Prop where
  waits : ∀ w ∈ d.waits, (w.due, .endWait w.number) ∈ schedule
  dues : ∀ time number, (time, .endWait number) ∈ schedule →
    number < d.made ∧ ∀ w ∈ d.waits, w.number = number → w.due = time

/-- Each run that has been launched is about to take its first step, and somebody is about to pass
each gate that is free. -/
structure Calls (d : Dispatcher (Task σ ρ ι) ρ) (ready : List (Action σ ρ ι)) : Prop where
  enters : d.launched.length ≤ ready.countP Action.isEnter
  wakes : ∀ gate, (d.gateAt gate).isHeld = false → (d.gateAt gate).queue ≠ [] → .wake gate ∈ ready

/-- What runs set off is minded. In `owed` are the runs that have started and whose ends are not
planned yet, with the times. -/
structure Attends (owed : List (Run (Task σ ρ ι) × Nat)) (d : Dispatcher (Task σ ρ ι) ρ)
    (labels : List ι) (time : Nat) (schedule : List (Nat × Action σ ρ ι))
    (ready : List (Action σ ρ ι)) : Prop
    extends Awaits d schedule, Calls d ready where
  sound : d.Sound
  abandoned : d.abandoned = []
  now : d.now = time
  labels : labels.length = d.made
  resumes : ((owed ++ endings schedule).map Prod.fst).Perm
    ((d.visits.filter (·.isRunning)).map Visit.run)

/-- A clock goes through events. -/
structure Going (n : Nat) (rest : List (Moment × Event σ ρ ι))
    (owed : List (Run (Task σ ρ ι) × Nat))
    (clock : Clock σ ρ ι) : Prop where
  inTurn : InTurn n rest clock.now clock.agenda clock.planned clock.ready
  attends : Attends owed clock.dispatcher clock.labels clock.now.time clock.schedule clock.ready
  closing : clock.closing = []
  stopped : clock.stopped = false
  working : owed ≠ [] → n < clock.now.tick

/-- What the end of a run sets off. -/
def sequel (clock : Clock σ ρ ι) (run : Run (Task σ ρ ι)) : List (Action σ ρ ι) :=
  ((clock.gateLeft? run).map .wake).toList ++ [.noticeEnd run.number]

theorem ended_eq (clock : Clock σ ρ ι) (run : Run (Task σ ρ ι)) :
    clock.ended run =
      { clock with
        state := (run.task.act clock.state).1
        dispatcher := clock.dispatcher.finish run.number (run.task.act clock.state).2
        log := clock.log ++ [(clock.now.time, .ended run.task.label)]
          ++ clock.news (.finish run.number (run.task.act clock.state).2) } := by
  rw [ended, move_eq]
  rfl

theorem finish_eq_sequel (clock : Clock σ ρ ι) (run : Run (Task σ ρ ι)) :
    clock.finish run =
      { clock with
        state := (run.task.act clock.state).1
        dispatcher := clock.dispatcher.finish run.number (run.task.act clock.state).2
        ready := clock.ready ++ clock.sequel run
        log := clock.log ++ [(clock.now.time, .ended run.task.label)]
          ++ clock.news (.finish run.number (run.task.act clock.state).2) } := by
  rw [finish_eq, ended_eq]
  simp only [sequel, List.append_assoc]

theorem mem_sequel {run : Run (Task σ ρ ι)} {action : Action σ ρ ι}
    (h : action ∈ clock.sequel run) :
    action.isWork = true ∧ action.resume? = none ∧ ∀ number, action ≠ .endWait number := by
  rcases List.mem_append.mp h with hwake | hnotice
  · obtain ⟨_, -, rfl⟩ := Option.map_eq_some_iff.mp (Option.mem_toList.mp hwake)
    exact ⟨rfl, rfl, by rintro _ ⟨⟩⟩
  · rw [List.mem_singleton.mp hnotice]
    exact ⟨rfl, rfl, by rintro _ ⟨⟩⟩

theorem schedule_of_ready {action : Action σ ρ ι} {ready : List (Action σ ρ ι)}
    (h : clock.ready = action :: ready) :
    clock.schedule = (clock.now.time, action) :: { clock with ready }.schedule := by
  rw [schedule, schedule, h]
  rfl

theorem perm_schedule_soon (clock : Clock σ ρ ι) (actions : List (Action σ ρ ι)) :
    { clock with ready := clock.ready ++ actions }.schedule.Perm
      (actions.map (clock.now.time, ·) ++ clock.schedule) := by
  simp only [schedule, List.map_append]
  rw [← List.append_assoc]
  exact List.perm_append_comm.append_right _

theorem perm_schedule_plan (clock : Clock σ ρ ι) (due : Moment) (action : Action σ ρ ι)
    (planned : Nat) :
    { clock with agenda := clock.agenda.insert due action, planned }.schedule.Perm
      ((due.time, action) :: clock.schedule) := by
  simp only [schedule]
  exact (((Agenda.perm_insert _ _ _).map fun e ↦ (e.1.time, e.2)).append_left _).trans
    List.perm_middle

theorem endings_cons (time : Nat) (action : Action σ ρ ι) (schedule : List (Nat × Action σ ρ ι)) :
    endings ((time, action) :: schedule) = (action.resume?.map (·, time)).toList ++
      endings schedule := by
  rw [endings, List.filterMap_cons]
  cases action <;> rfl

theorem endings_append {more : List (Nat × Action σ ρ ι)} (h : ∀ e ∈ more, e.2.resume? = none)
    (schedule : List (Nat × Action σ ρ ι)) : endings (more ++ schedule) = endings schedule := by
  have hnone : endings more = [] := List.filterMap_eq_nil_iff.mpr fun e he ↦ by
    rw [h e he, Option.map_none]
  rw [endings, List.filterMap_append, ← endings, hnone, List.nil_append, endings]

theorem perm_endings {schedule schedule' : List (Nat × Action σ ρ ι)}
    (h : schedule'.Perm schedule) : (endings schedule').Perm (endings schedule) :=
  h.filterMap _

section Awaits

variable {d d' : Dispatcher (Task σ ρ ι) ρ} {schedule schedule' : List (Nat × Action σ ρ ι)}
    {time : Nat}
  {action : Action σ ρ ι}

theorem Awaits.perm (h : Awaits d schedule) (hperm : schedule'.Perm schedule) :
    Awaits d schedule' :=
  ⟨fun w hw ↦ hperm.symm.subset (h.waits w hw), fun time number hmem ↦
    h.dues time number (hperm.subset hmem)⟩

theorem Awaits.cons (h : Awaits d schedule) (haction : ∀ number, action ≠ .endWait number) :
    Awaits d ((time, action) :: schedule) := by
  refine ⟨fun w hw ↦ List.mem_cons_of_mem _ (h.waits w hw), fun due number hmem ↦
    h.dues due number ?_⟩
  refine (List.mem_cons.mp hmem).resolve_left fun heq ↦ haction number ?_
  exact (Prod.mk.inj heq).2.symm

theorem Awaits.append (h : Awaits d schedule) {actions : List (Action σ ρ ι)}
    (hactions : ∀ action ∈ actions, ∀ number, action ≠ .endWait number) :
    Awaits d (actions.map (time, ·) ++ schedule) := by
  induction actions with
  | nil => exact h
  | cons action actions ih =>
    obtain ⟨haction, hactions⟩ := List.forall_mem_cons.mp hactions
    exact (ih hactions).cons haction

theorem Awaits.of_cons (h : Awaits d ((time, action) :: schedule)) (hmade : d'.made = d.made)
    (hwaits : d'.waits ⊆ d.waits) (haction : ∀ w ∈ d'.waits, action ≠ .endWait w.number) :
    Awaits d' schedule := by
  refine ⟨fun w hw ↦ ?_, fun due number hmem ↦ ?_⟩
  · refine (List.mem_cons.mp (h.waits w (hwaits hw))).resolve_left fun heq ↦ haction w hw ?_
    exact (Prod.mk.inj heq).2.symm
  · obtain ⟨hlt, hdue⟩ := h.dues due number (List.mem_cons_of_mem _ hmem)
    exact ⟨hmade ▸ hlt, fun w hw ↦ hdue w (hwaits hw)⟩

theorem Awaits.of_waits (h : Awaits d schedule) (hmade : d'.made = d.made)
    (hwaits : d'.waits ⊆ d.waits) :
    Awaits d' schedule :=
  ⟨fun w hw ↦ h.waits w (hwaits hw), fun due number hmem ↦
    ⟨hmade ▸ (h.dues due number hmem).1, fun w hw ↦ (h.dues due number hmem).2 w (hwaits hw)⟩⟩

end Awaits

namespace Going

variable {n : Nat} {rest : List (Moment × Event σ ρ ι)} {owed : List (Run (Task σ ρ ι) × Nat)}
  {action : Action σ ρ ι} {ready : List (Action σ ρ ι)} {run : Run (Task σ ρ ι)} {time : Nat}

theorem soon_resume (h : Going n rest ((run, clock.now.time) :: owed) clock) :
    Going n rest owed (clock.soon (.resume run)) := by
  have hperm := perm_schedule_soon clock [.resume run]
  refine ⟨h.inTurn.withReady ?_ fun _ ↦ h.working (List.cons_ne_nil _ _),
    ⟨?_, ⟨?_, ?_⟩, h.attends.sound, h.attends.abandoned, h.attends.now, h.attends.labels, ?_⟩,
    h.closing, h.stopped,
    fun _ ↦ h.working (List.cons_ne_nil _ _)⟩
  · exact List.forall_mem_append.mpr ⟨h.inTurn.work, List.forall_mem_singleton.mpr rfl⟩
  · exact (h.attends.toAwaits.cons fun _ heq ↦ by cases heq).perm hperm
  · refine Nat.le_trans h.attends.enters ?_
    rw [soon, List.countP_append]
    exact Nat.le_add_right _ _
  · exact fun gate hheld hqueue ↦ List.mem_append_left _ (h.attends.wakes gate hheld hqueue)
  · refine .trans (((perm_endings hperm).append_left owed).map Prod.fst) ?_
    exact (List.perm_middle.map Prod.fst).trans h.attends.resumes

theorem plan_resume {duration : Nat}
    (h : Going n rest ((run, clock.now.time + duration) :: owed) clock) :
    Going n rest owed (clock.planAfter duration (.resume run)) := by
  have hperm := perm_schedule_plan clock ⟨clock.now.time + duration, clock.now.tick +
    (clock.planned + 1)⟩
    (.resume run) (clock.planned + 1)
  refine ⟨h.inTurn.plan duration rfl, ⟨?_, h.attends.toCalls, h.attends.sound,
    h.attends.abandoned, h.attends.now, h.attends.labels, ?_⟩, h.closing, h.stopped,
    fun _ ↦ h.working (List.cons_ne_nil _ _)⟩
  · exact (h.attends.toAwaits.cons fun _ heq ↦ by cases heq).perm hperm
  · refine .trans (((perm_endings hperm).append_left owed).map Prod.fst) ?_
    exact (List.perm_middle.map Prod.fst).trans h.attends.resumes

theorem mem_running (h : Going n rest ((run, time) :: owed) clock) :
    run ∈ (clock.dispatcher.visits.filter (·.isRunning)).map Visit.run :=
  h.attends.resumes.subset List.mem_cons_self

/-- A run ends that is owed. -/
theorem finish (h : Going n rest ((run, clock.now.time) :: owed) clock) :
    Going n rest owed (clock.finish run) := by
  have htick := h.working (List.cons_ne_nil _ _)
  obtain ⟨gate, before, after, hfinished⟩ :=
    Dispatcher.exists_finished h.attends.sound h.mem_running (run.task.act clock.state).2
  have hsound : (clock.dispatcher.finish run.number (run.task.act clock.state).2).Sound :=
    h.attends.sound.move (.finish _ _)
  -- Whoever waits at the gate that the run leaves is about to pass it.
  have hleft : ∀ other,
      ((clock.dispatcher.finish run.number (run.task.act clock.state).2).gateAt other).isHeld
      = false →
      ((clock.dispatcher.finish run.number (run.task.act clock.state).2).gateAt other).queue ≠ [] →
      .wake other ∈ clock.ready ++ clock.sequel run := by
    intro other hheld hqueue
    rw [hfinished.gates] at hheld hqueue
    by_cases hother : gate = other
    · refine List.mem_append_right _ (List.mem_append_left _ ?_)
      have hgate : clock.gateLeft? run = some gate := by
        rw [gateLeft?, hfinished.gateOf, Option.filter_some, if_pos]
        rw [if_pos hother] at hqueue
        rw [ended_eq]
        simpa [hfinished.gates gate] using hqueue
      rw [hgate, hother]
      exact List.mem_singleton_self _
    · rw [if_neg hother] at hheld hqueue
      exact List.mem_append_left _ (h.attends.wakes other hheld hqueue)
  have hperm := perm_schedule_soon (clock.ended run) (clock.sequel run)
  rw [ended_eq] at hperm
  rw [finish_eq_sequel]
  refine ⟨h.inTurn.withReady ?_ fun _ ↦ htick, ⟨?_, ⟨?_, hleft⟩, hsound, ?_, ?_, ?_, ?_⟩,
    h.closing, h.stopped, fun _ ↦ htick⟩
  · exact List.forall_mem_append.mpr ⟨h.inTurn.work, fun action haction ↦ (mem_sequel haction).1⟩
  · refine Awaits.perm (Awaits.append ?_ fun action haction ↦ (mem_sequel haction).2.2) hperm
    exact h.attends.toAwaits.of_waits hfinished.made (hfinished.waits ▸ List.Subset.refl _)
  · rw [hfinished.launched, List.countP_append]
    exact Nat.le_trans h.attends.enters (Nat.le_add_right _ _)
  · exact hfinished.abandoned.trans h.attends.abandoned
  · exact hfinished.now.trans h.attends.now
  · exact h.attends.labels.trans hfinished.made.symm
  · refine .trans (((perm_endings hperm).append_left owed).map Prod.fst) ?_
    have hnone : ∀ e ∈ (clock.sequel run).map (clock.now.time, ·), e.2.resume? = none :=
      List.forall_mem_map.mpr fun action haction ↦ (mem_sequel haction).2.1
    rw [endings_append hnone, hfinished.visits]
    have hrunning : ((clock.dispatcher.visits.filter (·.isRunning)).map Visit.run).Perm
        (run :: ((before ++ after).filter (·.isRunning)).map Visit.run) := by
      rw [hfinished.split, List.filter_append, List.filter_cons_of_pos rfl, List.filter_append]
      exact List.perm_middle.map Visit.run
    exact (h.attends.resumes.trans hrunning).cons_inv

theorem note (h : Going n rest owed clock) (entry : Entry ρ ι) :
    Going n rest owed (clock.note entry) :=
  ⟨h.inTurn, h.attends, h.closing, h.stopped, h.working⟩

theorem start (h : Going n rest ((run, clock.now.time + run.task.duration.getD 0) :: owed) clock) :
    Going n rest owed (clock.start run) := by
  have hnoted := h.note (.started run.task.label)
  rw [Clock.start]
  split
  · next hduration =>
    rw [hduration] at hnoted
    exact hnoted.finish
  · next hduration =>
    rw [hduration] at hnoted
    exact hnoted.soon_resume
  · next duration _ hduration =>
    rw [hduration] at hnoted
    exact hnoted.plan_resume

end Going

/-- The run that starts holds its gate. -/
theorem Starts.calls {d : Dispatcher (Task σ ρ ι) ρ} {run : Run (Task σ ρ ι)}
    {action : Action σ ρ ι} {m : Move (Task σ ρ ι) ρ} (h : Starts d run action m) (hsound : d.Sound)
    {ready : List (Action σ ρ ι)} (hcalls : Calls d (action :: ready)) :
    Calls (d.move m) ready := by
  cases h with
  | @enter launched hlaunched _ heq =>
    have henters := hcalls.enters
    rw [heq]
    refine ⟨?_, fun gate hheld hqueue ↦ ?_⟩
    · rw [hlaunched, List.length_cons, List.countP_cons_of_pos rfl] at henters
      exact Nat.le_of_succ_le_succ henters
    · rcases Nat.lt_trichotomy gate d.gates.length with hlt | rfl | hgt
      · simp only [Dispatcher.gateAt, List.getElem?_append_left hlt] at hheld hqueue
        exact (List.mem_cons.mp (hcalls.wakes gate hheld hqueue)).resolve_left (by rintro ⟨⟩)
      · simp [Dispatcher.gateAt] at hheld
      · have hnone : (d.gates ++ [⟨true, []⟩])[gate]? = none := by
          rw [List.getElem?_eq_none_iff, List.length_append]
          exact hgt
        simp [Dispatcher.gateAt, hnone] at hqueue
  | @wake before after gate hvisits _ _ heq =>
    have hgate := hsound.gated.gate ⟨run, gate, false⟩
      (hvisits ▸ List.mem_append_right _ List.mem_cons_self)
    obtain ⟨-, hlt, -⟩ := hsound.gated.line _ _ hgate
    rw [heq]
    refine ⟨Nat.le_trans hcalls.enters (Nat.le_of_eq (List.countP_cons_of_neg (by rintro ⟨⟩))),
      fun other hheld hqueue ↦ ?_⟩
    simp only [Dispatcher.gateAt, Dispatcher.gateAt_set hlt] at hheld hqueue
    by_cases hother : gate = other
    · rw [if_pos hother] at hheld
      cases hheld
    · rw [if_neg hother] at hheld hqueue
      refine (List.mem_cons.mp (hcalls.wakes other hheld hqueue)).resolve_left fun heq ↦ hother ?_
      exact (Action.wake.inj heq).symm

theorem Starts.running {d : Dispatcher (Task σ ρ ι) ρ} {run : Run (Task σ ρ ι)}
    {action : Action σ ρ ι} {m : Move (Task σ ρ ι) ρ} (h : Starts d run action m) :
    (((d.move m).visits.filter (·.isRunning)).map Visit.run).Perm
        (run :: (d.visits.filter (·.isRunning)).map Visit.run) ∧
      (d.move m).visits.countP (!·.isRunning) + (if action.isEnter then 0 else 1)
        = d.visits.countP (!·.isRunning) := by
  cases h with
  | enter _ _ heq =>
    rw [heq]
    simp only [List.filter_append, List.map_append, List.countP_append]
    exact ⟨List.perm_append_comm, rfl⟩
  | @wake before after gate hvisits _ _ heq =>
    rw [heq, hvisits]
    simp only [List.filter_append, List.filter_cons, List.map_append, List.map_cons,
      List.countP_append, if_true]
    exact ⟨List.perm_middle, by simp [Action.isEnter]; omega⟩

theorem Starts.same {d : Dispatcher (Task σ ρ ι) ρ} {run : Run (Task σ ρ ι)} {action : Action σ ρ ι}
    {m : Move (Task σ ρ ι) ρ} (h : Starts d run action m) :
    Dispatcher.SameWaiting d (d.move m) ∧ Dispatcher.SameSettled d (d.move m) ∧
    action.resume? = none ∧
      ∀ number, action ≠ .endWait number := by
  have hunanswered : (d.note (.started run)).unanswered = d.unanswered :=
    (Dispatcher.unanswered_note d (.started run)).trans (List.append_nil _)
  cases h with
  | enter _ _ heq =>
    rw [heq]
    exact ⟨⟨rfl, rfl, rfl, rfl, rfl⟩, ⟨rfl, rfl, hunanswered⟩, rfl, by rintro _ ⟨⟩⟩
  | wake _ _ _ heq =>
    rw [heq]
    exact ⟨⟨rfl, rfl, rfl, rfl, rfl⟩, ⟨rfl, rfl, hunanswered⟩, rfl, by rintro _ ⟨⟩⟩

namespace Going

variable {n : Nat} {rest : List (Moment × Event σ ρ ι)} {owed : List (Run (Task σ ρ ι) × Nat)}
  {action : Action σ ρ ι} {ready : List (Action σ ρ ι)} {run : Run (Task σ ρ ι)} {time : Nat}

theorem tick (h : Going n rest owed clock) (hready : clock.ready = action :: ready) :
    n < clock.now.tick :=
  h.inTurn.tick (hready ▸ List.cons_ne_nil _ _)

theorem work (h : Going n rest owed clock) (hready : clock.ready = action :: ready) :
    ∀ action ∈ ready, action.isWork = true :=
  fun other hother ↦ h.inTurn.work other (hready ▸ List.mem_cons_of_mem _ hother)

theorem first (h : Going n rest [] clock) (hready : clock.ready = action :: ready) :
    Awaits clock.dispatcher ((clock.now.time, action) :: { clock with ready }.schedule) ∧
      Calls clock.dispatcher (action :: ready) ∧
      ((endings ((clock.now.time, action) :: { clock with ready }.schedule)).map Prod.fst).Perm
        ((clock.dispatcher.visits.filter (·.isRunning)).map Visit.run) := by
  have hawaits := h.attends.toAwaits
  have hcalls := h.attends.toCalls
  have hresumes := h.attends.resumes
  rw [hready] at hcalls
  rw [schedule_of_ready hready] at hawaits hresumes
  exact ⟨hawaits, hcalls, hresumes⟩

theorem starts (h : Going n rest [] clock) (hready : clock.ready = action :: ready)
    {m : Move (Task σ ρ ι) ρ} (hstarts : Starts clock.dispatcher run action m) (stop : Nat) :
    Going n rest [(run, stop)] { clock with dispatcher := clock.dispatcher.move m, ready } := by
  obtain ⟨hwaiting, hsettled, hresume, hwait⟩ := hstarts.same
  obtain ⟨hawaits, hcalls, hresumes⟩ := h.first hready
  refine ⟨h.inTurn.withReady (h.work hready) fun _ ↦ h.tick hready,
    ⟨?_, hstarts.calls h.attends.sound hcalls, h.attends.sound.move m,
      hsettled.abandoned.trans h.attends.abandoned, hwaiting.now.trans h.attends.now,
    h.attends.labels.trans hwaiting.made.symm, ?_⟩, h.closing, h.stopped, fun _ ↦ h.tick hready⟩
  · exact hawaits.of_cons hwaiting.made (hwaiting.waits ▸ List.Subset.refl _) fun _ _ ↦ hwait _
  · rw [endings_cons, hresume] at hresumes
    exact (hresumes.cons run).trans hstarts.running.1.symm

theorem resumed (h : Going n rest [] clock) (hready : clock.ready = .resume run :: ready) :
    Going n rest [(run, clock.now.time)] { clock with ready } := by
  obtain ⟨hawaits, hcalls, hresumes⟩ := h.first hready
  refine ⟨h.inTurn.withReady (h.work hready) fun _ ↦ h.tick hready,
    ⟨hawaits.of_cons rfl (List.Subset.refl _)
    (by rintro _ _ ⟨⟩), ⟨?_, fun gate hheld hqueue ↦ ?_⟩, h.attends.sound, h.attends.abandoned,
    h.attends.now,
    h.attends.labels, hresumes⟩, h.closing, h.stopped, fun _ ↦ h.tick hready⟩
  · exact Nat.le_trans hcalls.enters (Nat.le_of_eq (List.countP_cons_of_neg (by rintro ⟨⟩)))
  · exact (List.mem_cons.mp (hcalls.wakes gate hheld hqueue)).resolve_left (by rintro ⟨⟩)

theorem nothing (h : Going n rest [] clock) (hready : clock.ready = action :: ready)
    (hresume : action.resume? = none)
    (hwaits : ∀ w ∈ clock.dispatcher.waits, action ≠ .endWait w.number)
    (hlaunched : action = .enter → clock.dispatcher.launched = [])
    (hpassed : ∀ gate, action = .wake gate →
      (clock.dispatcher.gateAt gate).isHeld = true ∨ (clock.dispatcher.gateAt gate).queue = []) :
    Going n rest [] { clock with ready } := by
  obtain ⟨hawaits, hcalls, hresumes⟩ := h.first hready
  rw [endings_cons, hresume] at hresumes
  refine ⟨h.inTurn.withReady (h.work hready) fun _ ↦ h.tick hready,
    ⟨hawaits.of_cons rfl (List.Subset.refl _) hwaits, ⟨?_, fun gate hheld hqueue ↦ ?_⟩,
      h.attends.sound, h.attends.abandoned, h.attends.now, h.attends.labels,
    hresumes⟩, h.closing, h.stopped, fun _ ↦ h.tick hready⟩
  · by_cases henter : action = .enter
    · rw [hlaunched henter]
      exact Nat.zero_le _
    · refine Nat.le_trans hcalls.enters (Nat.le_of_eq (List.countP_cons_of_neg fun he ↦ henter ?_))
      cases action <;> first | rfl | cases he
  · refine (List.mem_cons.mp (hcalls.wakes gate hheld hqueue)).resolve_left fun hwake ↦ ?_
    rcases hpassed gate hwake.symm with hheld' | hqueue'
    · rw [hheld] at hheld'
      cases hheld'
    · exact hqueue hqueue'

/-- A run is launched, and what lets it enter becomes ready. -/
theorem launch (h : Going n rest [] clock) {w : Wait (Task σ ρ ι)} {answers : List Nat}
    {log : List (Nat × Mark (Task σ ρ ι) ρ)} (hready : clock.ready = .endWait w.number :: ready)
    (hw : w ∈ clock.dispatcher.waits)
    (heq : clock.dispatcher.move (.endWait w.number) =
      { clock.dispatcher with
        handles := (clock.dispatcher.othersThan w.key).map Dispatcher.handleOf
        waits := clock.dispatcher.othersThan w.key
        waiters := Ordered.erase w.key clock.dispatcher.waiters
        launched := clock.dispatcher.launched ++ [⟨w.number, w.key, w.task, answers⟩]
        log }) :
    Going n rest []
      { clock with
        dispatcher := clock.dispatcher.move (.endWait w.number)
        ready := ready ++ [.enter] } := by
  obtain ⟨hawaits, hcalls, hresumes⟩ := h.first hready
  have hsound := h.attends.sound.move (.endWait w.number)
  have hperm := perm_schedule_soon { clock with ready } [.enter]
  rw [heq] at hsound ⊢
  refine ⟨h.inTurn.withReady ?_ fun _ ↦ h.tick hready,
    ⟨?_, ⟨?_, fun gate hheld hqueue ↦ ?_⟩, hsound, h.attends.abandoned, h.attends.now,
      h.attends.labels, ?_⟩, h.closing, h.stopped, fun _ ↦ h.tick hready⟩
  · exact List.forall_mem_append.mpr ⟨h.work hready, List.forall_mem_singleton.mpr rfl⟩
  · refine Awaits.perm (Awaits.cons ?_ fun _ he ↦ by cases he) hperm
    refine hawaits.of_cons rfl (List.filter_subset_self _) fun v hv hnumber ↦ ?_
    obtain ⟨hv, hkey⟩ := Dispatcher.mem_othersThan.mp hv
    have hsame := List.inj_on_of_nodup_map h.attends.sound.waiting.numbers hv hw
      (Action.endWait.inj hnumber).symm
    exact hkey (hsame ▸ rfl)
  · have henters := hcalls.enters
    rw [List.countP_cons_of_neg (by rintro ⟨⟩)] at henters
    simp only [List.length_append, List.countP_append]
    exact Nat.add_le_add_right henters _
  · refine List.mem_append_left _ ((List.mem_cons.mp (hcalls.wakes gate hheld hqueue)).resolve_left
      fun he ↦ ?_)
    cases he
  · exact ((perm_endings hperm).map Prod.fst).trans hresumes

/-- A run goes to the end of a line. The gate of that line is held, or there is somebody it is to
wake. -/
theorem join (h : Going n rest [] clock) {launched : List (Run (Task σ ρ ι))} {gate : Nat}
    {users : List (String × Int)} (hready : clock.ready = .enter :: ready)
    (hlaunched : clock.dispatcher.launched = run :: launched)
    (hgate : clock.dispatcher.gateOf.lookup run.key = some gate)
    (heq : clock.dispatcher.move .enter =
      { clock.dispatcher with
        launched
        users
        gates := clock.dispatcher.gates.set gate
          { clock.dispatcher.gateAt gate with
            queue := (clock.dispatcher.gateAt gate).queue ++ [run.number] }
        visits := clock.dispatcher.visits ++ [⟨run, gate, false⟩] }) :
    Going n rest [] { clock with dispatcher := clock.dispatcher.move .enter, ready } := by
  obtain ⟨hawaits, hcalls, hresumes⟩ := h.first hready
  have hsound := h.attends.sound.move .enter
  obtain ⟨hne, hlt, hpasses⟩ := h.attends.sound.gated.line run.key gate hgate
  rw [heq] at hsound ⊢
  refine ⟨h.inTurn.withReady (h.work hready) fun _ ↦ h.tick hready,
    ⟨hawaits.of_cons rfl (List.Subset.refl _) (by rintro _ _ ⟨⟩),
      ⟨?_, fun other hheld hqueue ↦ ?_⟩, hsound, h.attends.abandoned, h.attends.now,
      h.attends.labels, ?_⟩, h.closing, h.stopped, fun _ ↦ h.tick hready⟩
  · have henters := hcalls.enters
    rw [hlaunched, List.length_cons, List.countP_cons_of_pos rfl] at henters
    exact Nat.le_of_succ_le_succ henters
  · simp only [Dispatcher.gateAt, Dispatcher.gateAt_set hlt] at hheld hqueue
    refine (List.mem_cons.mp (hcalls.wakes other ?_ ?_)).resolve_left (by rintro ⟨⟩)
    · split at hheld
      · next hother => exact hother ▸ hheld
      · exact hheld
    · split at hheld
      · next hother =>
        -- Whoever comes to a gate with a line finds it held or finds somebody waiting.
        have hbusy := hpasses.isHeld_or hne
        rw [← hother]
        rw [show (clock.dispatcher.gateAt gate).isHeld = false from hheld] at hbusy
        simpa using hbusy
      · next hother =>
        rw [if_neg hother] at hqueue
        exact hqueue
  · have hrunning : (clock.dispatcher.visits ++ [(⟨run, gate, false⟩ : Visit (Task σ ρ ι))]).filter
      (·.isRunning)
        = clock.dispatcher.visits.filter (·.isRunning) := by
      rw [List.filter_append, List.filter_cons_of_neg (by rintro ⟨⟩), List.filter_nil,
        List.append_nil]
    simp only [hrunning]
    exact hresumes

theorem doing (h : Going n rest [] clock) (hdoing : Doing clock clock') :
    Going n rest [] clock' := by
  cases hdoing with
  | nothing hready hresume hwaits hlaunched hpassed =>
      exact h.nothing hready hresume hwaits hlaunched hpassed
  | launch hready hw _ _ heq => exact h.launch hready hw heq
  | join hready hlaunched hgate heq => exact h.join hready hlaunched hgate heq
  | start hready hstarts => exact (h.starts hready hstarts _).start
  | finish hready => exact (h.resumed hready).finish

end Going

end Clock

end MissionIndex.Schedule
