import MissionIndex.Proofs.Schedule.Sight

/-!
# Keys do not meet

All keys share a clock, a delay and the tables of one dispatcher. Still, what shows of one key goes
on as it was told from the events for that key alone (`Apart.doing`, `Apart.take`). So whatever else
is going on, the same comes of these events (`keys_independent`): long runs, failures and
cancellations for other keys leave no trace.
-/

namespace MissionIndex.Schedule

variable {σ ρ ι ν : Type}

namespace Clock

/-! ## The order of a log -/

/-- The entries of a log are in order. In the log are none from runs at the present time if more
events may come. -/
structure Orderly (n : Nat) (now : Moment) (log : List (Nat × Entry ρ ι)) : Prop where
  pairwise : log.Pairwise MayPrecede
  le : ∀ e ∈ log, e.1 ≤ now.time
  runs : ∀ e ∈ log, e.2.isOfRun = true → e.1 < now.time ∨ n < now.tick

section Orderly

variable {n : Nat} {now now' : Moment} {log more : List (Nat × Entry ρ ι)}

theorem Orderly.pass (h : Orderly n now log) (hlater : now' = now ∨ now.before now' = true) :
    Orderly n now' log := by
  rcases hlater with rfl | hlater
  · exact h
  · rw [Moment.before_iff] at hlater
    refine ⟨h.pairwise, fun e he ↦ ?_, fun e he hrun ↦ ?_⟩
    · have hle := h.le e he
      omega
    · have hle := h.le e he
      have hbefore := h.runs e he hrun
      omega

theorem Orderly.runs_append (h : Orderly n now log) (htick : n < now.tick)
    (hmore : ∀ e ∈ more, e.1 = now.time ∧ e.2.isOfRun = true) : Orderly n now (log ++ more) := by
  refine ⟨List.pairwise_append.mpr ⟨h.pairwise, ?_, fun a ha b hb ↦ ?_⟩, ?_, fun _ _ _ ↦ .inr htick⟩
  · refine List.pairwise_of_forall_mem_list fun a ha b hb ↦ .inr ⟨?_, fun _ ↦ (hmore b hb).2⟩
    rw [(hmore a ha).1, (hmore b hb).1]
  · have hle := h.le a ha
    obtain ⟨htime, hrun⟩ := hmore b hb
    rcases Nat.lt_or_ge a.1 b.1 with hlt | hge
    · exact .inl hlt
    · exact .inr ⟨by omega, fun _ ↦ hrun⟩
  · exact List.forall_mem_append.mpr ⟨h.le, fun e he ↦ Nat.le_of_eq (hmore e he).1⟩

theorem Orderly.events_append (h : Orderly n now log) (htick : now.tick ≤ n)
    (hmore : ∀ e ∈ more, e.1 = now.time ∧ e.2.isOfRun = false) : Orderly n now (log ++ more) := by
  refine ⟨List.pairwise_append.mpr ⟨h.pairwise, ?_, fun a ha b hb ↦ ?_⟩, ?_, fun e he hrun ↦ ?_⟩
  · refine List.pairwise_of_forall_mem_list fun a ha b hb ↦ .inr ⟨?_, fun hrun ↦ ?_⟩
    · rw [(hmore a ha).1, (hmore b hb).1]
    · rw [(hmore a ha).2] at hrun
      cases hrun
  · have hle := h.le a ha
    obtain ⟨htime, -⟩ := hmore b hb
    rcases Nat.lt_or_ge a.1 b.1 with hlt | hge
    · exact .inl hlt
    · refine .inr ⟨by omega, fun hrun ↦ ?_⟩
      have hbefore := h.runs a ha hrun
      omega
  · exact List.forall_mem_append.mpr ⟨h.le, fun e he ↦ Nat.le_of_eq (hmore e he).1⟩
  · rcases List.mem_append.mp he with hold | hnew
    · exact h.runs e hold hrun
    · rw [(hmore e hnew).2] at hrun
      cases hrun

end Orderly

/-! ## How a key goes on -/

theorem Starts.inProgress {d : Dispatcher (Task σ ρ ι) ρ} {run : Run (Task σ ρ ι)}
    {action : Action σ ρ ι} {m : Move (Task σ ρ ι) ρ} (h : Starts d run action m) :
    run ∈ d.inProgress ∧ (d.move m).inProgress ⊆ d.inProgress := by
  cases h with
  | enter hlaunched _ heq =>
    rw [heq]
    simp only [Dispatcher.inProgress, hlaunched, List.map_append, List.map_cons, List.map_nil]
    refine ⟨List.mem_append_left _ List.mem_cons_self, fun other hother ↦ ?_⟩
    simp only [List.mem_append, List.mem_cons, List.not_mem_nil, or_false] at hother ⊢
    tauto
  | wake hvisits _ _ heq =>
    rw [heq]
    simp only [Dispatcher.inProgress, hvisits, List.map_append, List.map_cons]
    exact ⟨List.mem_append_right _ (List.mem_append_right _ List.mem_cons_self), List.Subset.refl _⟩

/-- Of the events to come those that concern a key, with their times. -/
def eventsFor (key : String) (rest : List (Moment × Event σ ρ ι)) : List (Nat × Event σ ρ ι) :=
  (rest.map fun e ↦ (e.1.time, e.2)).filter (·.2.concerns key)

theorem Going.lt_of_mem_eventsFor {n : Nat} {rest : List (Moment × Event σ ρ ι)}
    {clock : Clock σ ρ ι} (h : Going n rest [] clock) {action : Action σ ρ ι}
    {ready : List (Action σ ρ ι)} (hready : clock.ready = action :: ready) {key : String} :
    ∀ e ∈ eventsFor key rest, clock.now.time < e.1 := by
  intro e he
  obtain ⟨next, hnext, rfl⟩ := List.mem_map.mp (List.mem_filter.mp he).1
  obtain ⟨planned, hplanned, heq⟩ := List.mem_filterMap.mp (h.inTurn.events.symm.subset hnext)
  obtain ⟨_, -, rfl⟩ := Option.map_eq_some_iff.mp heq
  have hlater := h.inTurn.later planned hplanned
  have htick := h.inTurn.ticks _ hnext
  have hworking := h.tick hready
  rw [Moment.before_iff] at hlater
  simp only at htick ⊢
  omega

/-- A clock goes through events as it was told for a key. -/
structure Apart (forecast : Forecast σ ρ ι ν) (n : Nat) (rest : List (Moment × Event σ ρ ι))
    (owed : List (Run (Task σ ρ ι) × Nat)) (clock : Clock σ ρ ι) : Prop where
  going : Going n rest owed clock
  keyed : Keyed forecast clock.dispatcher clock.labels
  orderly : Orderly n clock.now clock.log
  meets : ∃ done left, (clock.sight forecast owed).Meets forecast done left
    (eventsFor forecast.key rest)

namespace Apart

variable {forecast : Forecast σ ρ ι ν} {n : Nat} {rest rest' : List (Moment × Event σ ρ ι)}
  {owed : List (Run (Task σ ρ ι) × Nat)} {clock clock' : Clock σ ρ ι} {run : Run (Task σ ρ ι)}
  {action : Action σ ρ ι} {ready : List (Action σ ρ ι)}

/-- In time that passes things stay as they were told. -/
theorem pass (h : Apart forecast n rest [] clock) (hpassing : Passing clock clock') :
    Keyed forecast clock'.dispatcher clock'.labels ∧ Orderly n clock'.now clock'.log ∧
      ∃ done left, (clock'.sight forecast []).Meets forecast done left
        (eventsFor forecast.key rest) := by
  obtain ⟨done, left, hmeets⟩ := h.meets
  have hkeyed : Keyed forecast { clock.dispatcher with now := clock'.now.time } clock.labels :=
    h.keyed.of_subset
    (fun _ _ hlookup ↦ hlookup) (List.Subset.refl _) (List.Subset.refl _)
  rw [hpassing.dispatcher, hpassing.labels, hpassing.log, sight_pass hpassing]
  refine ⟨hkeyed, h.orderly.pass ?_, done, left, hmeets.pass ?_ ?_⟩
  · exact hpassing.later.imp_right And.left
  · rcases hpassing.later with heq | ⟨hlater, -⟩
    · exact Nat.le_of_eq (congrArg Moment.time heq).symm
    · rw [Moment.before_iff] at hlater
      change clock.now.time ≤ clock'.now.time
      omega
  · refine hpassing.later.imp (congrArg Moment.time) fun ⟨_, hready⟩ ↦ ?_
    cases hserving : clock.dispatcher.servingFor forecast.key with
    | nil =>
      refine .inr ?_
      rw [sight, h.going.queue_eq_nil hready hserving, List.map_nil]
    | cons =>
      refine .inl ?_
      rw [sight, hserving]
      rfl

theorem soon_resume (h : Apart forecast n rest ((run, clock.now.time) :: owed) clock) :
    Apart forecast n rest owed (clock.soon (.resume run)) :=
  ⟨h.going.soon_resume, h.keyed, h.orderly, by rw [sight_soon_resume]; exact h.meets⟩

theorem plan_resume {duration : Nat}
    (h : Apart forecast n rest ((run, clock.now.time + duration) :: owed) clock) :
    Apart forecast n rest owed (clock.planAfter duration (.resume run)) :=
  ⟨h.going.plan_resume, h.keyed, h.orderly, by rw [sight_plan_resume]; exact h.meets⟩

theorem finish (h : Apart forecast n rest ((run, clock.now.time) :: owed) clock) :
    Apart forecast n rest owed (clock.finish run) := by
  obtain ⟨gate, before, after, hfinished⟩ :=
    Dispatcher.exists_finished h.going.attends.sound h.going.mem_running
    (run.task.act clock.state).2
  obtain ⟨hrun, hruns⟩ := hfinished.inProgress
  have hsuits := h.keyed.runs run hrun
  have hanswers := h.keyed.answers run hrun
  refine ⟨h.going.finish, ?_, ?_, ?_⟩
  · rw [finish_eq_sequel]
    exact h.keyed.of_subset (fun key numbers hlookup ↦ hfinished.waiters ▸ hlookup)
      (hfinished.waits ▸ List.Subset.refl _) hruns
  · rw [finish_eq_sequel, news_finish h.going, List.append_assoc]
    refine h.orderly.runs_append (h.going.working (List.cons_ne_nil _ _)) ?_
    exact List.forall_mem_cons.mpr
      ⟨⟨rfl, rfl⟩, Ending.forall_mem_entries (fun _ _ _ ↦ ⟨rfl, rfl⟩) _⟩
  · obtain ⟨done, left, hmeets⟩ := h.meets
    obtain ⟨hother, hown⟩ := sight_finish h.going hsuits.label hanswers fun hkey ↦
      hsuits.leaves hkey clock.state
    by_cases hkey : run.key = forecast.key
    · obtain ⟨hserving, later, ends, hqueue, hends, hsight⟩ := hown hkey
      rw [hsight]
      exact hmeets.finish hserving hqueue hends fun s hs ↦ hsuits.looks hkey s clock.state hs
    · rw [hother hkey]
      exact ⟨done, left, hmeets⟩

theorem begin (h : Apart forecast n rest [] clock) (hready : clock.ready = action :: ready)
    {m : Move (Task σ ρ ι) ρ} (hstarts : Starts clock.dispatcher run action m) :
    Apart forecast n rest [(run, clock.now.time + run.task.duration.getD 0)]
      ({ clock with dispatcher := clock.dispatcher.move m, ready }.note
        (.started run.task.label)) := by
  obtain ⟨hwaiting, -, -, -⟩ := hstarts.same
  obtain ⟨hrun, hruns⟩ := hstarts.inProgress
  have hsuits := h.keyed.runs run hrun
  refine ⟨(h.going.starts hready hstarts _).note _, ?_, ?_, ?_⟩
  · exact h.keyed.of_subset (fun key numbers hlookup ↦ hwaiting.waiters ▸ hlookup)
      (hwaiting.waits ▸ List.Subset.refl _) hruns
  · refine h.orderly.runs_append (h.going.tick hready) ?_
    exact List.forall_mem_singleton.mpr ⟨rfl, rfl⟩
  · obtain ⟨done, left, hmeets⟩ := h.meets
    obtain ⟨hother, hown⟩ :=
      sight_begin h.going hready hstarts hsuits.label (clock.now.time + run.task.duration.getD 0)
    by_cases hkey : run.key = forecast.key
    · obtain ⟨hidle, ⟨later, hqueue⟩, hsight⟩ := hown hkey
      rw [hsight]
      exact ⟨done, left, hmeets.begin hidle hqueue⟩
    · rw [hother hkey]
      exact ⟨done, left, hmeets⟩

theorem start (h : Apart forecast n rest [(run, clock.now.time + run.task.duration.getD 0)]
    (clock.note (.started run.task.label))) : Apart forecast n rest [] (clock.start run) := by
  rw [Clock.start]
  split
  · next hduration =>
    rw [hduration] at h
    exact h.finish
  · next hduration =>
    rw [hduration] at h
    exact h.soon_resume
  · next duration _ hduration =>
    rw [hduration] at h
    exact h.plan_resume

/-- **The first action that is ready is performed as it was told.** -/
theorem doing (h : Apart forecast n rest [] clock) (hdoing : Doing clock clock') :
    Apart forecast n rest [] clock' := by
  have hgoing := h.going.doing hdoing
  cases hdoing with
  | nothing hready hresume =>
    exact ⟨hgoing, h.keyed, h.orderly, by rw [sight_ready hready hresume]; exact h.meets⟩
  | @launch ready w earlier hready hw hdue hlookup heq =>
    obtain ⟨done, left, hmeets⟩ := h.meets
    have hkeyed : Keyed forecast (clock.dispatcher.move (.endWait w.number)) clock.labels := by
      rw [heq]
      exact h.keyed.launch h.going.attends.sound.waiting hw hlookup rfl
        (List.filter_subset_self _) rfl rfl
    refine ⟨hgoing, hkeyed, h.orderly, ?_⟩
    obtain ⟨hother, hown⟩ := sight_launch h.going hready hw hlookup heq
    by_cases hkey : w.key = forecast.key
    · obtain ⟨hpending, hsight⟩ := hown hkey
      rw [hsight]
      have hnow : w.due = clock.now.time := hdue.trans h.going.attends.now
      exact ⟨done, _, hmeets.launch hpending hnow (h.going.lt_of_mem_eventsFor hready)⟩
    · rw [hother hkey]
      exact ⟨done, left, hmeets⟩
  | @join ready run launched gate hready hlaunched hgate heq =>
    have hkeyed : Keyed forecast (clock.dispatcher.move .enter) clock.labels := by
      rw [heq]
      refine h.keyed.of_subset (fun _ _ hlookup ↦ hlookup) (List.Subset.refl _)
        fun other hother ↦ ?_
      simp only [Dispatcher.inProgress, hlaunched, List.map_append, List.map_cons, List.map_nil,
        List.mem_append, List.mem_cons, List.not_mem_nil, or_false] at hother ⊢
      tauto
    exact ⟨hgoing, hkeyed, h.orderly, by rw [sight_join h.going hready heq]; exact h.meets⟩
  | start hready hstarts => exact (h.begin hready hstarts).start
  | finish hready =>
    refine finish ⟨h.going.resumed hready, h.keyed, h.orderly, ?_⟩
    rw [sight_resumed forecast hready]
    exact h.meets

/-- **The next event happens as it was told.** -/
theorem take {event : Event σ ρ ι} (h : Apart forecast n ((clock'.now, event) :: rest) [] clock)
    (hgoing : Going n rest [] clock') (hpassing : Passing clock clock')
    (hsuits : event.Suits forecast.keyOf forecast.view forecast.key) :
    Apart forecast n rest [] (clock'.take event) := by
  obtain ⟨hkeyed, horderly, done, left, hmeets⟩ := h.pass hpassing
  have hcall := hsuits.isCall
  have htick : clock'.now.tick ≤ n := h.going.inTurn.ticks _ List.mem_cons_self
  have hwaiting := hgoing.attends.sound.waiting
  have hparts : Keyed forecast (clock'.take event).dispatcher (clock'.take event).labels ∧
      Orderly n clock'.now (clock'.take event).log ∧ (clock'.take event).now = clock'.now := by
    cases event with
    | request key task =>
      rw [take_request hwaiting]
      exact ⟨hkeyed.request hgoing.attends.sound hgoing.attends.labels hsuits, horderly, rfl⟩
    | cancel key =>
      rw [Clock.take, move_eq, news_cancel hgoing]
      refine ⟨hkeyed.of_subset
          (fun _ _ hlookup ↦ Dispatcher.lookup_waiters_cancels hwaiting [key] hlookup) ?_
          fun run hrun ↦ ?_,
        horderly.events_append htick (List.forall_mem_map.mpr fun _ _ ↦ ⟨rfl, rfl⟩), rfl⟩
      · rw [Dispatcher.move, Dispatcher.waits_cancel hwaiting.toHandled]
        exact List.filter_subset_self _
      · have hruns := Dispatcher.sameRuns_cancel hwaiting.toHandled key
        rwa [Dispatcher.inProgress, Dispatcher.move, hruns.launched, hruns.visits] at hrun
    | ask key =>
      exact ⟨hkeyed, horderly.events_append htick (List.forall_mem_singleton.mpr ⟨rfl, rfl⟩), rfl⟩
    | setDelay delay =>
      have hnews : (clock'.take (.setDelay delay))
          = { clock' with dispatcher := { clock'.dispatcher with delay } } :=
        move_of_settled_eq rfl
      rw [hnews]
      exact ⟨hkeyed.of_subset (fun _ _ hlookup ↦ hlookup) (List.Subset.refl _) (List.Subset.refl _),
        horderly, rfl⟩
    | _ => cases hcall
  obtain ⟨hkeyed', horderly', hnow⟩ := hparts
  refine ⟨(hgoing.take hcall).1, hkeyed', hnow ▸ horderly', ?_⟩
  obtain ⟨hother, hown⟩ := sight_take hgoing hkeyed hcall
  cases hconcerns : event.concerns forecast.key with
  | false =>
    rw [hother hconcerns]
    rw [eventsFor, List.map_cons, List.filter_cons_of_neg (by simpa using hconcerns)] at hmeets
    exact ⟨done, left, hmeets⟩
  | true =>
    rw [hown hconcerns]
    rw [eventsFor, List.map_cons, List.filter_cons_of_pos (by simpa using hconcerns)] at hmeets
    refine ⟨done, left, hmeets.event fun job hjob ↦ ?_⟩
    exact Nat.le_trans (Nat.le_of_eq hgoing.attends.now.symm) (le_of_pendingFor hwaiting hjob)

theorem turns {forecast : Forecast σ ρ ι ν} {n : Nat}
    {first last : List (Moment × Event σ ρ ι) × Clock σ ρ ι}
    (h : Apart forecast n first.1 [] first.2) (hturns : Turns n first last)
    (hsuits : ∀ e ∈ first.1, e.2.Suits forecast.keyOf forecast.view forecast.key) :
    Apart forecast n last.1 [] last.2 := by
  suffices hall : Apart forecast n last.1 [] last.2 ∧ last.1 ⊆ first.1 from hall.1
  induction hturns with
  | refl => exact ⟨h, List.Subset.refl _⟩
  | tail _ hturn ih =>
    obtain ⟨ih, hsubset⟩ := ih
    cases hturn with
    | pass hgoing hpassing =>
      obtain ⟨hkeyed, horderly, hmeets⟩ := ih.pass hpassing
      exact ⟨⟨hgoing, hkeyed, horderly, hmeets⟩, hsubset⟩
    | act hdoing => exact ⟨ih.doing hdoing, hsubset⟩
    | take hgoing hpassing =>
      refine ⟨ih.take hgoing hpassing (hsuits _ (hsubset List.mem_cons_self)), fun e he ↦ ?_⟩
      exact hsubset (List.mem_cons_of_mem _ he)

end Apart

/-! ## Two runs -/

section Runs

variable {keyOf : ι → String} {view : σ → ν} {key : String} {events : List (Nat × Event σ ρ ι)}

/-- At the beginning all is to come. -/
theorem apart_planInTurn (keyOf : ι → String) (view : σ → ν) (key : String) (state : σ)
    (delay : Nat) (hsorted : events.Pairwise fun a b ↦ a.1 ≤ b.1) :
    Apart
      { key, keyOf, view, state
        entries := Outlook.entries ⟨delay, none⟩ (events.filter (·.2.concerns key))
        jobs := Outlook.jobs ⟨delay, none⟩ (events.filter (·.2.concerns key)) }
      events.length (placedFrom 0 events) [] ((ofState state delay).planInTurn events) := by
  obtain ⟨hgoing, -⟩ := going_planInTurn state delay hsorted
  obtain ⟨agenda, heq, -⟩ :=
    planInTurn_eq ({ state, dispatcher := { delay } } : Clock σ ρ ι) events rfl Agenda.isHeap_empty
  rw [← ofState_eq] at heq
  have hresumes := hgoing.attends.resumes
  have hvisits : ((ofState state delay).planInTurn events).dispatcher.visits = [] := by
    rw [heq, ofState_eq]
  rw [hvisits, List.filter_nil, List.map_nil] at hresumes
  have hends : endsFor key [] ((ofState state delay).planInTurn events).schedule = 0 := by
    rw [endsFor, List.map_eq_nil_iff.mp hresumes.eq_nil]
    rfl
  refine ⟨hgoing, ?_, ?_, [], [], ?_⟩
  · rw [heq, ofState_eq]
    exact ⟨by rintro _ _ ⟨⟩, by rintro _ ⟨⟩, by rintro _ ⟨⟩, by rintro _ ⟨⟩⟩
  · rw [heq, ofState_eq]
    exact ⟨.nil, by rintro _ ⟨⟩, by rintro _ ⟨⟩⟩
  · have hevents : eventsFor key (placedFrom 0 events) = events.filter (·.2.concerns key) := by
      rw [eventsFor, map_placedFrom]
    rw [hevents]
    simp only [sight, hends]
    rw [heq, ofState_eq]
    refine ⟨rfl, rfl, rfl, by rintro _ ⟨⟩, Nat.le_refl 0, rfl, .idle rfl rfl rfl ?_⟩
    rintro _ ⟨⟩

/-- **A log tells of a key what can be told beforehand.** -/
theorem foretold (state : σ) (delay : Nat) (hsorted : events.Pairwise fun a b ↦ a.1 ≤ b.1)
    (hsuits : ∀ e ∈ events, e.2.Suits keyOf view key) :
    ((ofState state delay).runThrough events).isOver = true ∧
      ((ofState state delay).runThrough events).log.Pairwise MayPrecede ∧
      atOnce keyOf key ((ofState state delay).runThrough events).log
        = Outlook.entries ⟨delay, none⟩ (events.filter (·.2.concerns key)) ∧
      ofRuns keyOf key ((ofState state delay).runThrough events).log
        = served state (Outlook.jobs ⟨delay, none⟩ (events.filter (·.2.concerns key))) := by
  obtain ⟨hturns, hlast, hover⟩ := going_runThrough state delay hsorted fun e he ↦
    (hsuits e he).isCall
  have hbegin := apart_planInTurn keyOf view key state delay hsorted
  have hplaced : ∀ e ∈ placedFrom 0 events, e.2.Suits keyOf view key := by
    intro e he
    refine hsuits (e.1.time, e.2) ?_
    rw [← map_placedFrom 0 events]
    exact List.mem_map_of_mem he
  have hend := hbegin.turns hturns hplaced
  obtain ⟨-, hready, hschedule⟩ := hlast.eq_nil_of_isOver hover
  obtain ⟨done, left, hmeets⟩ := hend.meets
  refine ⟨hover, hend.orderly.pairwise, hmeets.all ?_ ?_⟩
  · refine pendingFor_eq_none (fun w hw ↦ ?_) _
    have hentry := hlast.attends.waits w hw
    rw [hschedule] at hentry
    cases hentry
  · have hserving : ((ofState state delay).runThrough events).dispatcher.servingFor key = [] := by
      have hresumes := hlast.attends.resumes
      rw [hschedule] at hresumes
      refine List.eq_nil_iff_forall_not_mem.mpr fun run hrun ↦ ?_
      obtain ⟨v, hv, rfl⟩ := List.mem_map.mp hrun
      obtain ⟨hline, hrunning⟩ := List.mem_filter.mp hv
      have hmem := hresumes.symm.subset
        (List.mem_map_of_mem (List.mem_filter.mpr ⟨(Dispatcher.mem_line.mp hline).1, hrunning⟩))
      cases hmem
    rw [sight, hlast.queue_eq_nil hready hserving, List.map_nil]

theorem logFor_eq (state : σ) (delay : Nat) (hsorted : events.Pairwise fun a b ↦ a.1 ≤ b.1)
    (hsuits : ∀ e ∈ events, e.2.Suits keyOf view key) :
    logFor keyOf key ((ofState state delay).runThrough events).log
      = logFor keyOf key ((ofState state delay).runThrough
        (events.filter (·.2.concerns key))).log := by
  obtain ⟨-, hordered, hatOnce, hofRuns⟩ := foretold state delay hsorted hsuits
  have hsuits' : ∀ e ∈ events.filter (·.2.concerns key), e.2.Suits keyOf view key :=
    fun e he ↦ hsuits e (List.mem_filter.mp he).1
  obtain ⟨-, hordered', hatOnce', hofRuns'⟩ :=
    foretold state delay (hsorted.filter (·.2.concerns key)) hsuits'
  simp only [List.filter_filter, Bool.and_self] at hatOnce' hofRuns'
  exact eq_of_filter_eq (fun a b hne ↦ MayPrecede.not_of_ne hne) (hordered.filter _)
    (hordered'.filter _)
    (hofRuns.trans hofRuns'.symm) (hatOnce.trans hatOnce'.symm)

/-- Where all events concern one key, so does the log. -/
theorem concerns_of_mem_log (state : σ) (delay : Nat)
    (hsorted : events.Pairwise fun a b ↦ a.1 ≤ b.1)
    (hsuits : ∀ e ∈ events, e.2.Suits keyOf view key)
    (hconcerns : ∀ e ∈ events, e.2.concerns key = true) :
    ∀ e ∈ ((ofState state delay).runThrough events).log, e.2.concerns keyOf key = true := by
  intro e he
  obtain ⟨other, hother⟩ := e.2.exists_concerns keyOf
  by_contra hne
  have hkey : other ≠ key := fun hkey ↦ hne ((hother key).trans (by simpa using hkey))
  -- No request is for the other key, so it does not matter for it what tasks do.
  have hsuits' : ∀ e ∈ events, e.2.Suits keyOf (fun _ : σ ↦ ()) other := by
    intro e he
    have hsuit := hsuits e he
    have hown := hconcerns e he
    obtain ⟨time, event⟩ := e
    cases event with
    | request requested task =>
      obtain rfl : requested = key := by simpa [Event.concerns, Event.key?] using hown
      exact ⟨hsuit.label, fun hsame ↦ absurd hsame.symm hkey, fun _ _ ↦ rfl⟩
    | _ => exact hsuit
  have hnone : ∀ e ∈ events.filter (·.2.concerns other), e.2.key? = none := by
    intro e he
    obtain ⟨he, hfor⟩ := List.mem_filter.mp he
    have hown := hconcerns e he
    rw [Event.concerns] at hfor hown
    cases hkey? : e.2.key? with
    | none => rfl
    | some requested =>
      rw [hkey?] at hfor hown
      exact absurd ((beq_iff_eq.mp hfor).symm.trans (beq_iff_eq.mp hown)) hkey
  obtain ⟨hentries, hjobs⟩ := Outlook.nothing_of_key?_eq_none delay hnone
  obtain ⟨-, -, hatOnce, hofRuns⟩ := foretold state delay hsorted hsuits'
  rw [hentries] at hatOnce
  rw [hjobs] at hofRuns
  have hmem : e ∈ logFor keyOf other ((ofState state delay).runThrough events).log :=
    List.mem_filter.mpr ⟨he, by simp [hother]⟩
  cases hrun : e.2.isOfRun with
  | false => exact List.ne_nil_of_mem (List.mem_filter.mpr ⟨hmem, by rw [hrun]; rfl⟩) hatOnce
  | true => exact List.ne_nil_of_mem (List.mem_filter.mpr ⟨hmem, hrun⟩) hofRuns

/-- **Keys are independent.** What a log tells of a key is the whole log of the run from which all
events for other keys are left out. -/
theorem keys_independent (state : σ) (delay : Nat) (hsorted : events.Pairwise fun a b ↦ a.1 ≤ b.1)
    (hsuits : ∀ e ∈ events, e.2.Suits keyOf view key) :
    ((ofState state delay).runThrough events).isOver = true ∧
      ((ofState state delay).runThrough (events.filter (·.2.concerns key))).isOver = true ∧
      logFor keyOf key ((ofState state delay).runThrough events).log
        = ((ofState state delay).runThrough (events.filter (·.2.concerns key))).log := by
  have hsorted' := hsorted.filter (·.2.concerns key)
  have hsuits' : ∀ e ∈ events.filter (·.2.concerns key), e.2.Suits keyOf view key :=
    fun e he ↦ hsuits e (List.mem_filter.mp he).1
  have hall := concerns_of_mem_log state delay hsorted' hsuits' fun e he ↦ (List.mem_filter.mp he).2
  refine ⟨(foretold state delay hsorted hsuits).1, (foretold state delay hsorted' hsuits').1, ?_⟩
  rw [logFor_eq state delay hsorted hsuits, logFor, List.filter_eq_self.mpr hall]

def counting (number : Nat) (duration : Option Nat) : Task Nat Nat (String × Nat) :=
  ⟨("a", number), duration, fun n ↦ (n + 1, .returned (some n))⟩

def failing (number : Nat) (duration : Option Nat) : Task Nat Nat (String × Nat) :=
  ⟨("b", number), duration, fun n ↦ (n, .returned none)⟩

/-- Events for two keys, of which one is busy with a run that takes long. -/
def crowd : List (Nat × Event Nat Nat (String × Nat)) :=
  [(0, .request "a" (counting 0 (some 4))), (0, .request "b" (failing 0 (some 9))), (2, .ask "a"),
    (3, .request "b" (failing 1 none)), (3, .request "a" (counting 1 (some 0))), (4, .setDelay 3),
    (4, .cancel "b"),
    (5, .request "b" (failing 2 none)), (5, .ask "a"), (9, .request "a" (counting 2 none)),
    (10, .cancel "a")]

theorem keys_independent_crowd :
    (crowd.Pairwise fun a b ↦ a.1 ≤ b.1) ∧ (∀ e ∈ crowd, e.2.Suits Prod.fst (id : Nat → Nat) "a") ∧
      ((ofState 0 2).runThrough crowd).isOver = true ∧
      logFor Prod.fst "a" ((ofState 0 2).runThrough crowd).log
        = ((ofState 0 2).runThrough (crowd.filter (·.2.concerns "a"))).log ∧
      ((ofState 0 2).runThrough crowd).log.length = 16 ∧
      ((ofState 0 2).runThrough (crowd.filter (·.2.concerns "a"))).log.length = 9 := by
  have hsorted : crowd.Pairwise fun a b ↦ a.1 ≤ b.1 := by decide
  have hcounting : ∀ number duration,
      (counting number duration).Suits Prod.fst (id : Nat → Nat) "a" "a" :=
    fun _ _ ↦
      ⟨rfl, fun _ s s' hs ↦ by obtain rfl : s = s' := hs; exact ⟨rfl, rfl⟩,
        fun hne ↦ absurd rfl hne⟩
  have hfailing : ∀ number duration,
      (failing number duration).Suits Prod.fst (id : Nat → Nat) "a" "b" :=
    fun _ _ ↦ ⟨rfl, fun heq ↦ absurd heq (by decide), fun _ _ ↦ rfl⟩
  have hsuits : ∀ e ∈ crowd, e.2.Suits Prod.fst (id : Nat → Nat) "a" := by
    simp only [crowd, List.forall_mem_cons]
    exact ⟨hcounting 0 _, hfailing 0 _, rfl, hfailing 1 _, hcounting 1 _, rfl, rfl, hfailing 2 _,
      rfl, hcounting 2 _, rfl, by rintro _ ⟨⟩⟩
  obtain ⟨hover, -, hlog⟩ := keys_independent 0 2 hsorted hsuits
  exact ⟨hsorted, hsuits, hover, hlog, by decide +kernel, by decide +kernel⟩

end Runs

end Clock

end MissionIndex.Schedule
