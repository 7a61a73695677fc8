import MissionIndex.Proofs.Schedule.Course

/-!
# Closing

Who closes a dispatcher has everything given up that waits, and then waits for the runs in progress,
those that have not come to their gate or wait at it included. When all of them have ended, and
nothing has been asked for meanwhile, there is nothing left (`closed_leaves_nothing`), but for
requests whose run has ended without an answer, since its task was cancelled
(`closed_leaves_unanswered`).

## What the loop knows

The loop goes by actions that it has made ready earlier: the end of a task that was suspended, and
the news that a run has ended. Both tell the truth whenever they come, since a run that has started
or ended has done so for good (`Truthful`). Since the closing began, no run is launched, so those in
progress are always among those that the closing one still waits for (`Closes`).
-/

namespace MissionIndex.Schedule

def Action.isAboutClosing {σ ρ ι : Type} : Action σ ρ ι → Bool
  | .noticeEnd _ | .beginClosing _ | .closed _ => true
  | _ => false

def Action.closed? {σ ρ ι : Type} : Action σ ρ ι → Option ι
  | .closed label => some label
  | _ => none

def Entry.closed? {ρ ι : Type} : Entry ρ ι → Option ι
  | .closed label => some label
  | _ => none

namespace Dispatcher

variable {τ ρ : Type} {d d' : Dispatcher τ ρ} {run : Run τ} {n : Nat}

/-! ## What stays so -/

/-- A dispatcher can come to another one. -/
def Reaches : Dispatcher τ ρ → Dispatcher τ ρ → Prop := Relation.ReflTransGen fun d d' ↦ ∃ move,
    d' = d.move move

theorem reaches_move (d : Dispatcher τ ρ) (move : Move τ ρ) : Reaches d (d.move move) :=
  .single ⟨move, rfl⟩

theorem Reaches.sound (h : Reaches d d') (hsound : d.Sound) : d'.Sound := by
  induction h with
  | refl => exact hsound
  | tail _ hmove ih =>
    obtain ⟨move, rfl⟩ := hmove
    exact ih.move move

theorem Reaches.distinct (h : Reaches d d') (hsound : d.Sound) (hdistinct : d.Distinct) :
    d'.Distinct := by
  induction h with
  | refl => exact hdistinct
  | tail hreaches hmove ih =>
    obtain ⟨move, rfl⟩ := hmove
    exact ih.move (Reaches.sound hreaches hsound) move

theorem Reaches.log_prefix (h : Reaches d d') (hsound : d.Sound) : d.log <+: d'.log := by
  induction h with
  | refl => exact List.prefix_refl _
  | tail hreaches hmove ih =>
    obtain ⟨move, rfl⟩ := hmove
    refine ih.trans ?_
    obtain hsame | ⟨mark, hlog, -⟩ := log_move (Reaches.sound hreaches hsound) move
    · exact hsame ▸ List.prefix_refl _
    · exact hlog ▸ List.prefix_append _ _

theorem Reaches.made_le (h : Reaches d d') (hsound : d.Sound) : d.made ≤ d'.made := by
  induction h with
  | refl => exact Nat.le_refl _
  | tail hreaches hmove ih =>
    obtain ⟨move, rfl⟩ := hmove
    exact Nat.le_trans ih (now_made_le_move (Reaches.sound hreaches hsound).waiting move).2

theorem Reaches.mem_starts (h : Reaches d d') (hsound : d.Sound) (hrun : run ∈ d.starts) :
    run ∈ d'.starts :=
  ((h.log_prefix hsound).sublist.filterMap _).subset hrun

theorem Reaches.mem_ends (h : Reaches d d') (hsound : d.Sound) (hrun : run ∈ d.ends) :
    run ∈ d'.ends :=
  ((h.log_prefix hsound).sublist.filterMap _).subset hrun

theorem Reaches.mem_launches (h : Reaches d d') (hsound : d.Sound) (hrun : run ∈ d.launches) :
    run ∈ d'.launches :=
  ((h.log_prefix hsound).sublist.filterMap _).subset hrun

theorem Reaches.notMem_launches (h : Reaches d d') (hsound : d.Sound) (hlt : n < d.made)
    (hgone : n ∉ d.waits.map Wait.number) (hlaunch : n ∉ d.launches.map Run.number) :
    n ∉ d'.launches.map Run.number := by
  suffices hboth : n ∉ d'.waits.map Wait.number ∧ n ∉ d'.launches.map Run.number from hboth.2
  induction h with
  | refl => exact ⟨hgone, hlaunch⟩
  | tail hreaches hmove ih =>
    obtain ⟨move, rfl⟩ := hmove
    have hsound' := Reaches.sound hreaches hsound
    have hlt' := Nat.lt_of_lt_of_le hlt (Reaches.made_le hreaches hsound)
    refine ⟨notMem_waits_move hsound'.waiting hlt' ih.1 move, fun hn ↦ ?_⟩
    rcases mem_launches_move hsound' hn with hold | ⟨w, hw, rfl, -⟩
    · exact ih.2 hold
    · exact ih.1 (List.mem_map_of_mem hw)

/-- Where nothing waits and nothing is asked for, nothing is launched. -/
theorem Reaches.waits_launches (h : Reaches d d') (hsound : d.Sound) (hwaits : d.waits = [])
    (hmade : d'.made = d.made) : d'.waits = [] ∧ d'.launches = d.launches := by
  induction h with
  | refl => exact ⟨hwaits, rfl⟩
  | @tail mid _ hreaches hmove ih =>
    obtain ⟨move, rfl⟩ := hmove
    have hsound' := Reaches.sound hreaches hsound
    have hle := (now_made_le_move hsound'.waiting move).2
    have hmid : mid.made = d.made :=
      Nat.le_antisymm (hmade ▸ hle) (Reaches.made_le hreaches hsound)
    obtain ⟨hnone, hlaunches⟩ := ih hmid
    constructor
    · refine List.eq_nil_iff_forall_not_mem.mpr fun w hw ↦ ?_
      obtain ⟨hw, -⟩ | ⟨key, task, rfl, -⟩ := (mem_waits_move hsound'.waiting move w).mp hw
      · rw [hnone] at hw
        cases hw
      · rw [Dispatcher.move, request_eq hsound'.waiting, ← hmid] at hmade
        exact absurd hmade (Nat.succ_ne_self _)
    · obtain hsame | ⟨-, -, w, hw, -⟩ := launches_move hsound' move
      · rw [hsame, hlaunches]
      · rw [hnone] at hw
        cases hw

/-! ## Runs that have been launched -/

theorem Sound.mem_launches_iff (h : d.Sound) :
    run ∈ d.launches ↔ run ∈ d.ends ∨ run ∈ d.inProgress := by
  have hfor : ∀ runs : List (Run τ), run ∈ runs ↔ run ∈ runsFor run.key runs :=
    fun runs ↦ by simp [runsFor]
  rw [hfor d.launches, h.inOrder.launches, List.mem_append, List.mem_append, ← hfor,
    ← hfor, inProgress, List.mem_append, or_comm (a := run ∈ d.launched)]
  refine or_congr_right (or_congr_left ?_)
  rw [List.mem_map, List.mem_map]
  constructor
  · rintro ⟨v, hv, rfl⟩
    exact ⟨v, (mem_line.mp hv).1, rfl⟩
  · rintro ⟨v, hv, rfl⟩
    exact ⟨v, mem_line.mpr ⟨hv, rfl⟩, rfl⟩

/-- A run that has ended is not in progress any more. -/
theorem Distinct.notMem_inProgress (h : d.Distinct) (hsound : d.Sound)
    (hn : n ∈ d.ends.map Run.number) :
    n ∉ d.inProgress.map Run.number := by
  rintro hn'
  obtain ⟨run, hrun, rfl⟩ := List.mem_map.mp hn
  obtain ⟨other, hother, hnumber⟩ := List.mem_map.mp hn'
  obtain rfl := List.inj_on_of_nodup_map h.nodup_launches
    (hsound.mem_launches_iff.mpr (.inr hother))
    (hsound.mem_launches_iff.mpr (.inl hrun)) hnumber
  -- It would be among the runs for its key twice.
  have hnodup := h.nodup_launches.of_map.filter (·.key == other.key)
  change (runsFor other.key d.launches).Nodup at hnodup
  rw [hsound.inOrder.launches, List.nodup_append'] at hnodup
  refine hnodup.2.2 (List.mem_filter.mpr ⟨hrun, beq_self_eq_true _⟩) ?_
  rw [List.mem_append]
  rcases List.mem_append.mp hother with hlaunched | hvisit
  · exact .inr (List.mem_filter.mpr ⟨hlaunched, beq_self_eq_true _⟩)
  · obtain ⟨v, hv, rfl⟩ := List.mem_map.mp hvisit
    exact .inl (List.mem_map_of_mem (mem_line.mpr ⟨hv, rfl⟩))

theorem Reaches.inProgress_subset (h : Reaches d d') (hsound : d.Sound) (hdistinct : d.Distinct)
    (hwaits : d.waits = []) (hmade : d'.made = d.made) : d'.inProgress ⊆ d.inProgress := by
  rintro run hrun
  have hlaunched := (h.sound hsound).mem_launches_iff.mpr (.inr hrun)
  rw [(h.waits_launches hsound hwaits hmade).2, hsound.mem_launches_iff] at hlaunched
  refine hlaunched.resolve_left fun hended ↦ ?_
  exact (h.distinct hsound hdistinct).notMem_inProgress (h.sound hsound)
    (List.mem_map_of_mem (h.mem_ends hsound hended)) (List.mem_map_of_mem hrun)

theorem mem_ends_finish (h : d.Sound) (hrun : run ∈ d.starts) (ending : Ending ρ) :
    run ∈ (d.finish run.number ending).ends := by
  have hfor : run ∈ runsFor run.key d.starts :=
    List.mem_filter.mpr ⟨hrun, beq_self_eq_true _⟩
  rw [h.inOrder.starts, List.mem_append] at hfor
  have hreaches : Reaches d (d.finish run.number ending) :=
    reaches_move d (.finish run.number ending)
  rcases hfor with hended | hrunning
  · exact hreaches.mem_ends h (List.mem_filter.mp hended).1
  · obtain ⟨v, hv, rfl⟩ := List.mem_map.mp hrunning
    obtain ⟨hline, hv⟩ := List.mem_filter.mp hv
    rw [ends, log_finish h (mem_line.mp hline).1 hv, List.filterMap_append]
    exact List.mem_append_right _ (List.mem_singleton_self _)

/-- The requests that runs answer have got the results that the tasks have returned, those excepted
that their callers had given up. -/
def Answered (d : Dispatcher τ ρ) : Prop :=
  ∀ time run result, (time, Mark.ended run (.returned result)) ∈ d.log →
    ∀ n ∈ run.answers, (n, .done result) ∈ d.settled ∨ n ∈ d.abandoned

theorem Answered.move (h : d.Answered) (hsound : d.Sound) (move : Move τ ρ) :
    (d.move move).Answered := by
  rintro time run result hended n hn
  rcases (ended_move_iff hsound move time run _).mp hended with
    hold | ⟨-, v, hv, hrunning, rfl, rfl⟩
  · exact (h time run result hold n hn).imp
      (fun hsettled ↦ (mem_settled_move hsound move n _).mpr (.inl hsettled))
      fun habandoned ↦ abandoned_subset_move hsound move habandoned
  · by_cases hsettled : n ∈ d.settledNumbers
    · refine .inr (abandoned_subset_move hsound _ (hsound.accounts.apart n ?_ hsettled))
      exact List.mem_append_right _ (List.mem_append_left _
        (List.mem_flatMap.mpr ⟨v.run, List.mem_append_right _ (List.mem_map_of_mem hv), hn⟩))
    · exact .inl ((mem_settled_move hsound _ n _).mpr (.inr ⟨hsettled, .answered hv hrunning hn⟩))

theorem Reaches.answered (h : Reaches d d') (hsound : d.Sound) (hanswered : d.Answered) :
    d'.Answered := by
  induction h with
  | refl => exact hanswered
  | tail hreaches hmove ih =>
    obtain ⟨move, rfl⟩ := hmove
    exact ih.move (Reaches.sound hreaches hsound) move

/-! ## At rest -/

/-- Nothing waits, no run is in progress, there are no locks, and every request has been settled,
but for those that have been left without an answer. -/
structure IsAtRest (d : Dispatcher τ ρ) : Prop where
  waits : d.waits = []
  handles : d.handles = []
  waiters : d.waiters = []
  launched : d.launched = []
  visits : d.visits = []
  gateOf : d.gateOf = []
  users : d.users = []
  settled : ∀ n < d.made, n ∈ d.settledNumbers ∨ n ∈ d.unanswered
  /-- What has been left without an answer is settled only if its caller has given it up. -/
  unanswered : ∀ n ∈ d.unanswered, n ∈ d.settledNumbers → n ∈ d.abandoned

theorem Sound.isAtRest (h : d.Sound) (hwaits : d.waits = []) (hprogress : d.inProgress = []) :
    d.IsAtRest := by
  obtain ⟨hlaunched, hvisits⟩ := List.append_eq_nil_iff.mp hprogress
  have hvisits := List.map_eq_nil_iff.mp hvisits
  have hline := visits_eq_nil_iff.mp hvisits
  have hwaiters : d.waiters = [] := by
    refine List.eq_nil_iff_forall_not_mem.mpr fun e he ↦ ?_
    have hkey := (h.waiting.mem_iff e.1).mp (List.mem_map_of_mem he)
    rw [hwaits] at hkey
    cases hkey
  refine ⟨hwaits, ?_, hwaiters, hlaunched, hvisits, ?_, ?_, fun n hn ↦ ?_, fun n hn ↦
    h.accounts.apart n (List.mem_append_right _ (List.mem_append_right _ hn))⟩
  · rw [h.waiting.handles, hwaits, List.map_nil]
  · refine eq_nil_iff_lookup.mpr fun key ↦ ?_
    rw [← Option.not_isSome_iff_eq_none, h.gated.isSome_gateOf_iff, not_not]
    exact hline key
  · refine eq_nil_iff_lookup.mpr fun key ↦ ?_
    rw [h.gated.users, if_pos (hline key)]
  · have hplace := h.accounts.complete n hn
    rw [places, waitingNumbers, heldNumbers, hwaiters, hprogress] at hplace
    exact hplace.symm

end Dispatcher

namespace Clock

variable {σ ρ ι : Type} {clock clock' : Clock σ ρ ι} {label : ι}

/-! ## What the loop knows -/

/-- An action is ready or planned. -/
def Has (clock : Clock σ ρ ι) (action : Action σ ρ ι) : Prop :=
  action ∈ clock.ready ∨ action ∈ clock.agenda.items.map Prod.snd

def returned (clock : Clock σ ρ ι) : List ι := clock.log.filterMap (·.2.closed?)

/-- Those who have begun to close: some wait for runs, some are about to go on, and some have gone
on. -/
def closers (clock : Clock σ ρ ι) : List ι :=
  clock.closing.map Prod.fst ++ (clock.ready ++ clock.agenda.items.map Prod.snd).filterMap
  Action.closed?
    ++ clock.returned

/-- What has to have become of runs for an action to be made ready. That a closing one goes on is
not said here. -/
def Backed (d : Dispatcher (Task σ ρ ι) ρ) : Action σ ρ ι → Prop
  | .resume run => run ∈ d.starts
  | .noticeEnd number => number ∈ d.ends.map Run.number
  | .closed _ => False
  | _ => True

/-- One clock comes from another one by small things, none of which lets anybody who closes go
on. -/
structure Leads (clock clock' : Clock σ ρ ι) : Prop where
  reaches : Dispatcher.Reaches clock.dispatcher clock'.dispatcher
  backed : ∀ action, clock'.Has action → clock.Has action ∨ Backed clock'.dispatcher action
  closing : clock'.closing = clock.closing
  returned : clock'.returned = clock.returned

theorem backed_of_reaches {d d' : Dispatcher (Task σ ρ ι) ρ} (action : Action σ ρ ι)
    (h : Backed d action) (hreaches : Dispatcher.Reaches d d') (hsound : d.Sound) :
    Backed d' action := by
  cases action with
  | resume run => exact hreaches.mem_starts hsound h
  | noticeEnd number =>
    obtain ⟨run, hrun, rfl⟩ := List.mem_map.mp h
    exact List.mem_map_of_mem (hreaches.mem_ends hsound hrun)
  | closed label => exact h
  | _ => trivial

theorem returned_note (clock : Clock σ ρ ι) (entry : Entry ρ ι) :
    (clock.note entry).returned = clock.returned ++ entry.closed?.toList := by
  rw [returned, note, List.filterMap_append, returned]
  cases entry <;> rfl

namespace Leads

theorem refl (clock : Clock σ ρ ι) : Leads clock clock := ⟨.refl, fun _ ↦ .inl, rfl, rfl⟩

theorem trans {clock'' : Clock σ ρ ι} (h : Leads clock clock') (h' : Leads clock' clock'')
    (hsound : clock.dispatcher.Sound) : Leads clock clock'' := by
  refine ⟨h.reaches.trans h'.reaches, fun action haction ↦ ?_, h'.closing.trans h.closing,
    h'.returned.trans h.returned⟩
  rcases h'.backed action haction with hold | hnew
  · exact (h.backed action hold).imp_right fun hbacked ↦
      backed_of_reaches action hbacked h'.reaches (h.reaches.sound hsound)
  · exact .inr hnew

theorem note (clock : Clock σ ρ ι) (entry : Entry ρ ι) (hentry : entry.closed? = none) :
    Leads clock (clock.note entry) := by
  refine ⟨.refl, fun _ ↦ .inl, rfl, ?_⟩
  rw [returned_note, hentry, Option.toList_none, List.append_nil]

theorem soonAll (clock : Clock σ ρ ι) {actions : List (Action σ ρ ι)}
    (hbacked : ∀ action ∈ actions, Backed clock.dispatcher action) :
    Leads clock { clock with ready := clock.ready ++ actions } := by
  refine ⟨.refl, fun action haction ↦ ?_, rfl, rfl⟩
  rcases haction with hready | hplanned
  · exact (List.mem_append.mp hready).imp .inl (hbacked action)
  · exact .inl (.inr hplanned)

theorem soon (clock : Clock σ ρ ι) (action : Action σ ρ ι)
    (hbacked : Backed clock.dispatcher action) : Leads clock (clock.soon action) :=
  soonAll clock (List.forall_mem_singleton.mpr hbacked)

theorem plan (clock : Clock σ ρ ι) (action : Action σ ρ ι)
    (hbacked : Backed clock.dispatcher action) (due : Moment) (planned : Nat) :
    Leads clock { clock with agenda := clock.agenda.insert due action, planned } := by
  refine ⟨.refl, fun other hother ↦ ?_, rfl, rfl⟩
  rcases hother with hready | hplanned
  · exact .inl (.inl hready)
  · have hperm := (Agenda.perm_insert clock.agenda due action).map Prod.snd
    rcases List.mem_cons.mp (hperm.subset hplanned) with rfl | hold
    · exact .inr hbacked
    · exact .inl (.inr hold)

theorem move (clock : Clock σ ρ ι) (move : Move (Task σ ρ ι) ρ) :
    Leads clock (clock.move move) := by
  rw [move_eq]
  refine ⟨Dispatcher.reaches_move _ move, fun _ ↦ .inl, rfl, ?_⟩
  have hnews : (clock.news move).filterMap (·.2.closed?) = [] := by
    refine List.filterMap_eq_nil_iff.mpr fun e he ↦ ?_
    obtain ⟨_, -, he⟩ := List.mem_filterMap.mp he
    obtain ⟨_, -, rfl⟩ := Option.map_eq_some_iff.mp he
    rfl
  rw [Clock.returned, List.filterMap_append, hnews, List.append_nil, Clock.returned]

theorem state (clock : Clock σ ρ ι) (state : σ) : Leads clock { clock with state } :=
  ⟨.refl, fun _ ↦ .inl, rfl, rfl⟩

theorem of_subset (hready : ∀ action, clock'.Has action → clock.Has action)
    (hdispatcher : clock'.dispatcher = clock.dispatcher) (hclosing : clock'.closing = clock.closing)
    (hlog : clock'.log = clock.log) : Leads clock clock' :=
  ⟨hdispatcher ▸ .refl, fun action haction ↦ .inl (hready action haction), hclosing,
    by rw [Clock.returned, hlog, Clock.returned]⟩

theorem ended (h : clock.dispatcher.Sound) (run : Run (Task σ ρ ι)) :
    Leads clock (clock.ended run) := by
  refine (note clock (.ended run.task.label) rfl).trans ?_ h
  exact (state (clock.note (.ended run.task.label)) _).trans (move _ _) h

theorem finish (h : clock.dispatcher.Sound) {run : Run (Task σ ρ ι)}
    (hrun : run ∈ clock.dispatcher.starts) :
    Leads clock (clock.finish run) := by
  rw [finish_eq, List.append_assoc]
  refine (ended h run).trans (soonAll (clock.ended run) fun action haction ↦ ?_) h
  rcases List.mem_append.mp haction with hwake | hnotice
  · obtain ⟨gate, -, rfl⟩ := Option.map_eq_some_iff.mp (Option.mem_toList.mp hwake)
    trivial
  · rw [List.mem_singleton.mp hnotice]
    refine List.mem_map_of_mem ?_
    have hended := Dispatcher.mem_ends_finish h hrun (run.task.act clock.state).2
    rw [Clock.ended, move_eq]
    exact hended

theorem start (h : clock.dispatcher.Sound) {run : Run (Task σ ρ ι)}
    (hrun : run ∈ clock.dispatcher.starts) :
    Leads clock (clock.start run) := by
  rw [Clock.start]
  refine (note clock (.started run.task.label) rfl).trans ?_ h
  have hsound : (clock.note (.started run.task.label)).dispatcher.Sound := h
  split
  · exact finish hsound hrun
  · exact soon _ (.resume run) hrun
  · exact plan (clock.note (.started run.task.label)) (.resume run) hrun _ _

theorem moveOn (h : clock.dispatcher.Sound) (m : Move (Task σ ρ ι) ρ)
    (hcases : clock.moveOn m = clock.move m ∨ ∃ run, clock.moveOn m = (clock.move m).start run ∧
      (clock.dispatcher.move m).log = clock.dispatcher.log ++
        [(clock.dispatcher.now, .started run)]) :
    Leads clock (clock.moveOn m) := by
  obtain heq | ⟨run, heq, hlog⟩ := hcases
  · rw [heq]
    exact move clock m
  · rw [heq]
    have hdispatcher : (clock.move m).dispatcher = clock.dispatcher.move m := by rw [move_eq]
    have hrun : run ∈ (clock.dispatcher.move m).starts := by
      rw [Dispatcher.starts, hlog, List.filterMap_append]
      exact List.mem_append_right _ (List.mem_singleton_self _)
    rw [← hdispatcher] at hrun
    exact (move clock m).trans (start (hdispatcher ▸ h.move m) hrun) h

theorem take (h : clock.dispatcher.Sound) (event : Event σ ρ ι) :
    Leads clock (clock.take event) := by
  cases event with
  | request key task =>
    have hlabels : Leads clock { clock with labels := clock.labels ++ [task.label] } :=
      of_subset (fun _ ↦ id) rfl rfl rfl
    refine hlabels.trans ((move _ (.request key task)).trans (plan _ (.endWait _) trivial _ _) h) h
  | cancel key => exact move clock _
  | ask key => exact note clock (.answered key _) rfl
  | setDelay delay => exact move clock _
  | close label => exact soon clock (.beginClosing label) trivial
  | change label act => exact (state clock _).trans (note _ (.changed label) rfl) h

theorem dropStale (clock : Clock σ ρ ι) : Leads clock clock.dropStale := by
  obtain ⟨taken, -, hparts⟩ := Agenda.exists_span (fun _ action ↦ clock.isStale action) clock.agenda
  refine of_subset (fun action haction ↦ haction.imp_right fun hplanned ↦ ?_) rfl rfl rfl
  exact (hparts.perm.map Prod.snd).subset
    (by rw [List.map_append]; exact List.mem_append_right _ hplanned)

theorem pass (h : clock.dispatcher.Sound) (now : Moment) :
    Leads clock ((clock.moveTo now).move (.pass now.time)) := by
  obtain ⟨taken, htaken, hparts⟩ := Agenda.exists_span (fun due _ ↦ !now.before due) clock.agenda
  have hmoved : Leads clock (clock.moveTo now) := by
    refine of_subset (fun action haction ↦ ?_) rfl rfl rfl
    have hsubset : ∀ e ∈ (taken ++
      (clock.agenda.span fun due _ ↦ !now.before due).2.items).map Prod.snd,
        e ∈ clock.agenda.items.map Prod.snd := fun e he ↦ (hparts.perm.map Prod.snd).subset he
    rw [List.map_append] at hsubset
    rcases haction with hready | hplanned
    · rcases List.mem_append.mp hready with hold | hdue
      · exact .inl hold
      · exact .inr (hsubset action (List.mem_append_left _ (htaken ▸ hdue)))
    · exact .inr (hsubset action (List.mem_append_right _ hplanned))
  exact hmoved.trans (move _ _) h

end Leads

/-- What is said about the runs to be ended, and about those that have ended, is true. -/
structure Truthful (clock : Clock σ ρ ι) : Prop where
  sound : clock.dispatcher.Sound
  distinct : clock.dispatcher.Distinct
  answered : clock.dispatcher.Answered
  resumes : ∀ run, clock.Has (.resume run) → run ∈ clock.dispatcher.starts
  notices : ∀ number, clock.Has (.noticeEnd number) → number ∈ clock.dispatcher.ends.map Run.number

theorem Truthful.leads (h : clock.Truthful) (hleads : Leads clock clock') : clock'.Truthful := by
  refine ⟨hleads.reaches.sound h.sound, hleads.reaches.distinct h.sound h.distinct,
    hleads.reaches.answered h.sound h.answered, fun run hrun ↦ ?_, fun number hnumber ↦ ?_⟩
  · exact (hleads.backed _ hrun).elim
      (fun hold ↦ hleads.reaches.mem_starts h.sound (h.resumes run hold)) id
  · refine (hleads.backed _ hnumber).elim (fun hold ↦ ?_) id
    exact backed_of_reaches (.noticeEnd number) (h.notices number hold) hleads.reaches h.sound

theorem truthful_ofState (state : σ) (delay : Nat) :
    (ofState (ρ := ρ) (ι := ι) state delay).Truthful := by
  have hempty : ({ state } : Clock σ ρ ι).Truthful :=
    ⟨Dispatcher.sound_empty, Dispatcher.distinct_empty, nofun, nofun, nofun⟩
  exact hempty.leads (Leads.move _ _)

theorem Leads.without {before after : List (Action σ ρ ι)} {action : Action σ ρ ι}
    (hready : clock.ready = before ++ action :: after) :
    Leads clock { clock with ready := before ++ after } := by
  refine of_subset (fun other hother ↦ hother.imp_left fun hmem ↦ ?_) rfl rfl rfl
  rw [hready]
  rcases List.mem_append.mp hmem with hmem | hmem
  · exact List.mem_append_left _ hmem
  · exact List.mem_append_right _ (List.mem_cons_of_mem _ hmem)

theorem Leads.perform (h : clock.dispatcher.Sound) {action : Action σ ρ ι}
    (hother : action.isAboutClosing = false) (hresume : ∀ run, action = .resume run →
      run ∈ clock.dispatcher.starts) : Leads clock (clock.perform action) := by
  cases action with
  | event event => exact take h event
  | endWait number =>
    rw [Clock.perform]
    split
    · exact (move clock (.endWait number)).trans (soon _ .enter trivial) h
    · exact move clock (.endWait number)
  | enter => exact moveOn h .enter ((moveOn_enter h.gated).imp And.left id)
  | wake gate => exact moveOn h (.wake gate) ((moveOn_wake h gate).imp And.left id)
  | resume run => exact finish h (hresume run rfl)
  | stop => exact of_subset (fun _ ↦ id) rfl rfl rfl
  | _ => cases hother

/-- A step is a small thing, or by it somebody who closes goes on. -/
theorem Truthful.step_cases (h : clock.Truthful) (hstep : Step clock clock') :
    Leads clock clock' ∨ ∃ mid action, Leads clock mid ∧ mid.dispatcher = clock.dispatcher ∧
      (clock.Has action ∨ ∃ label, action = .beginClosing label) ∧ action.isAboutClosing = true ∧
      clock' = mid.perform action := by
  cases hstep with
  | take event => exact .inl (Leads.take h.sound event)
  | abandon number => exact .inl (Leads.move _ _)
  | close label => exact .inr ⟨clock, .beginClosing label, .refl clock, rfl,
      .inr ⟨label, rfl⟩, rfl, rfl⟩
  | planAt time event => exact .inl (Leads.plan clock (.event event) trivial _ _)
  | planAfter delay event => exact .inl (Leads.plan clock (.event event) trivial _ _)
  | @perform before after action hready =>
    have hleads := Leads.without hready
    have hhas : clock.Has action := .inl (hready ▸ List.mem_append_right _ List.mem_cons_self)
    cases habout : action.isAboutClosing with
    | true => exact .inr ⟨_, action, hleads, rfl, .inl hhas, habout, rfl⟩
    | false =>
      refine .inl (hleads.trans (Leads.perform ?_ habout fun run hrun ↦ ?_) h.sound)
      · exact h.sound
      · exact h.resumes run (hrun ▸ hhas)
  | dropStale => exact .inl (Leads.dropStale clock)
  | pass now => exact .inl (Leads.pass h.sound now)

theorem Truthful.of_has (h : clock.Truthful) (hdispatcher : clock'.dispatcher = clock.dispatcher)
    (hhas : ∀ action, clock'.Has action → clock.Has action ∨ ∃ label, action = .closed label) :
    clock'.Truthful := by
  refine ⟨hdispatcher ▸ h.sound, hdispatcher ▸ h.distinct, hdispatcher ▸ h.answered,
    fun run hrun ↦ ?_, fun number hnumber ↦ ?_⟩
  · rw [hdispatcher]
    exact h.resumes run ((hhas _ hrun).resolve_right nofun)
  · rw [hdispatcher]
    exact h.notices number ((hhas _ hnumber).resolve_right nofun)

theorem mem_lastWaiting {number : Nat} {closing : List (ι × List Nat)} :
    label ∈ lastWaiting number closing ↔
      ∃ runs, (label, runs) ∈ closing ∧ number ∈ runs ∧ ∀ n ∈ runs, n = number := by
  have hzip : closing.zip (leftOf number closing) = closing.map fun e ↦
      (e, e.1, e.2.filter (· != number)) := by
    have hzip := List.zip_map' (f := id) (g :=
      fun e : ι × List Nat ↦ (e.1, e.2.filter (· != number))) (l := closing)
    rwa [List.map_id] at hzip
  rw [lastWaiting, hzip]
  simp [List.filter_map]

theorem has_noticeEnd {number : Nat} {action : Action σ ρ ι}
    (h : (clock.noticeEnd number).Has action) :
    clock.Has action ∨ ∃ label ∈ lastWaiting number clock.closing, action = .closed label := by
  rw [noticeEnd_eq] at h
  rcases h with hready | hplanned
  · rcases List.mem_append.mp hready with hold | hnew
    · exact .inl (.inl hold)
    · obtain ⟨label, hlabel, rfl⟩ := List.mem_map.mp hnew
      exact .inr ⟨label, hlabel, rfl⟩
  · exact .inl (.inr hplanned)

theorem beginClosing_cases (clock : Clock σ ρ ι) (label : ι) :
    (clock.move .close).dispatcher.inProgress = [] ∧
        clock.beginClosing label = (clock.move .close).note (.closed label) ∨
      clock.beginClosing label =
        { clock.move .close with
          closing := (clock.move .close).closing
            ++ [(label, (clock.move .close).dispatcher.inProgress.map Run.number)] } := by
  rw [beginClosing]
  split
  · next hnone => exact .inl ⟨List.map_eq_nil_iff.mp hnone, rfl⟩
  · exact .inr rfl

theorem dispatcher_beginClosing (clock : Clock σ ρ ι) (label : ι) :
    (clock.beginClosing label).dispatcher = clock.dispatcher.close := by
  have hclose : (clock.move .close).dispatcher = clock.dispatcher.close := by
    rw [move_eq]
    rfl
  obtain ⟨-, heq⟩ | heq := beginClosing_cases clock label
  · rw [heq, ← hclose]
    rfl
  · rw [heq, ← hclose]

theorem reaches_goOn (clock : Clock σ ρ ι) {action : Action σ ρ ι}
    (habout : action.isAboutClosing = true) :
    Dispatcher.Reaches clock.dispatcher (clock.perform action).dispatcher := by
  cases action with
  | noticeEnd number =>
    rw [Clock.perform, noticeEnd_eq]
    exact .refl
  | beginClosing label =>
    rw [Clock.perform, dispatcher_beginClosing]
    exact Dispatcher.reaches_move _ .close
  | closed label => exact .refl
  | _ => cases habout

theorem Truthful.beginClosing (h : clock.Truthful) (label : ι) :
    (clock.beginClosing label).Truthful := by
  have hclose : (clock.move .close).Truthful := h.leads (Leads.move _ _)
  obtain ⟨-, heq⟩ | heq := beginClosing_cases clock label
  · rw [heq]
    exact hclose.of_has rfl fun _ ↦ .inl
  · rw [heq]
    exact hclose.of_has rfl fun _ ↦ .inl

theorem Truthful.goOn (h : clock.Truthful) (action : Action σ ρ ι)
    (habout : action.isAboutClosing = true) :
    (clock.perform action).Truthful := by
  cases action with
  | noticeEnd number =>
    refine h.of_has (by rw [Clock.perform, noticeEnd_eq]) fun action haction ↦ ?_
    rcases has_noticeEnd haction with hold | ⟨label, -, heq⟩
    · exact .inl hold
    · exact .inr ⟨label, heq⟩
  | beginClosing label => exact h.beginClosing label
  | closed label => exact h.of_has rfl fun _ ↦ .inl
  | _ => cases habout

theorem Truthful.step (h : clock.Truthful) (hstep : Step clock clock') : clock'.Truthful := by
  obtain hleads | ⟨mid, action, hleads, -, -, habout, rfl⟩ := h.step_cases hstep
  · exact h.leads hleads
  · exact (h.leads hleads).goOn action habout

theorem Truthful.reaches (h : clock.Truthful) (hreaches : Reaches clock clock') :
    clock'.Truthful := by
  induction hreaches with
  | refl => exact h
  | tail _ hstep ih => exact ih.step hstep

theorem Truthful.step_dispatcher (h : clock.Truthful) (hstep : Step clock clock') :
    Dispatcher.Reaches clock.dispatcher clock'.dispatcher := by
  obtain hleads | ⟨mid, action, hleads, -, -, habout, rfl⟩ := h.step_cases hstep
  · exact hleads.reaches
  · exact hleads.reaches.trans (reaches_goOn mid habout)

theorem Truthful.reaches_dispatcher (h : clock.Truthful) (hreaches : Reaches clock clock') :
    Dispatcher.Reaches clock.dispatcher clock'.dispatcher := by
  induction hreaches with
  | refl => exact .refl
  | tail hreaches hstep ih => exact ih.trans ((h.reaches hreaches).step_dispatcher hstep)

/-! ## Since the closing began -/

/-- Somebody has begun to close. Nothing waits, and they wait for each run that is in progress. -/
structure Closes (clock : Clock σ ρ ι) (label : ι) : Prop extends Truthful clock where
  waits : clock.dispatcher.waits = []
  awaited : ∀ runs, (label, runs) ∈ clock.closing → ∀ run ∈ clock.dispatcher.inProgress,
    run.number ∈ runs
  returns : clock.Has (.closed label) → clock.dispatcher.inProgress = []
  returned : label ∈ clock.returned → clock.dispatcher.inProgress = []

theorem Closes.leads (h : clock.Closes label) (hleads : Leads clock clock')
    (hmade : clock'.dispatcher.made = clock.dispatcher.made) : clock'.Closes label := by
  have hsubset := hleads.reaches.inProgress_subset h.sound h.distinct h.waits hmade
  have hnone : clock.dispatcher.inProgress = [] → clock'.dispatcher.inProgress = [] :=
    fun hnil ↦ List.eq_nil_of_subset_nil (hnil ▸ hsubset)
  refine ⟨h.toTruthful.leads hleads, (hleads.reaches.waits_launches h.sound h.waits hmade).1,
    fun runs hruns run hrun ↦ ?_, fun hhas ↦ ?_, fun hreturned ↦ ?_⟩
  · exact h.awaited runs (hleads.closing ▸ hruns) run (hsubset hrun)
  · exact hnone (h.returns ((hleads.backed _ hhas).resolve_right id))
  · exact hnone (h.returned (hleads.returned ▸ hreturned))

/-- The end of a run is made known. It is not awaited any more then, but those that are in progress
are. -/
theorem Closes.noticeEnd (h : clock.Closes label) {number : Nat}
    (hnumber : number ∈ clock.dispatcher.ends.map Run.number) :
    (clock.noticeEnd number).Closes label := by
  have hdispatcher : (clock.noticeEnd number).dispatcher = clock.dispatcher := by rw [noticeEnd_eq]
  have hother : ∀ run ∈ clock.dispatcher.inProgress, run.number ≠ number := fun run hrun hsame ↦
    h.distinct.notMem_inProgress h.sound hnumber (hsame ▸ List.mem_map_of_mem hrun)
  refine ⟨h.toTruthful.goOn (.noticeEnd number) rfl, hdispatcher ▸ h.waits,
    fun runs hruns run hrun ↦ ?_, fun hhas ↦ ?_, fun hreturned ↦ ?_⟩
  · rw [hdispatcher] at hrun
    rw [noticeEnd_eq] at hruns
    obtain ⟨⟨_, before⟩, hbefore, heq⟩ := List.mem_map.mp (List.mem_filter.mp hruns).1
    obtain ⟨rfl, rfl⟩ := Prod.mk.inj heq
    exact List.mem_filter.mpr ⟨h.awaited before hbefore run hrun, bne_iff_ne.mpr (hother run hrun)⟩
  · rw [hdispatcher]
    obtain hold | ⟨_, hlast, heq⟩ := has_noticeEnd hhas
    · exact h.returns hold
    · obtain ⟨runs, hruns, -, hall⟩ := mem_lastWaiting.mp (Action.closed.inj heq ▸ hlast)
      refine List.eq_nil_iff_forall_not_mem.mpr fun run hrun ↦ ?_
      exact hother run hrun (hall _ (h.awaited runs hruns run hrun))
  · rw [hdispatcher]
    refine h.returned ?_
    rw [noticeEnd_eq] at hreturned
    exact hreturned

/-- Whoever closes, they or somebody else, waits for the runs that are in progress. -/
theorem Closes.beginClosing (h : clock.Closes label) (other : ι) :
    (clock.beginClosing other).Closes label := by
  have hmade : (clock.move .close).dispatcher.made = clock.dispatcher.made := by
    rw [move_eq]
    exact (Dispatcher.now_made_cancels h.sound.waiting (clock.dispatcher.handles.map Prod.fst)).2
  have hclose := h.leads (Leads.move clock .close) hmade
  have htruthful := h.toTruthful.beginClosing other
  obtain ⟨hnone, heq⟩ | heq := beginClosing_cases clock other
  · rw [heq] at htruthful ⊢
    exact ⟨htruthful, hclose.waits, hclose.awaited, hclose.returns, fun _ ↦ hnone⟩
  · rw [heq] at htruthful ⊢
    refine ⟨htruthful, hclose.waits, fun runs hruns run hrun ↦ ?_, hclose.returns, hclose.returned⟩
    rcases List.mem_append.mp hruns with hold | hnew
    · exact hclose.awaited runs hold run hrun
    · rw [(Prod.mk.inj (List.mem_singleton.mp hnew)).2]
      exact List.mem_map_of_mem hrun

theorem Closes.step (h : clock.Closes label) (hstep : Step clock clock')
    (hmade : clock'.dispatcher.made = clock.dispatcher.made) : clock'.Closes label := by
  obtain hleads | ⟨mid, action, hleads, hmid, hhas, habout, rfl⟩ := h.toTruthful.step_cases hstep
  · exact h.leads hleads hmade
  · have hcloses := h.leads hleads (by rw [hmid])
    cases action with
    | noticeEnd number =>
      have hnumber := h.notices number (hhas.resolve_right (by rintro ⟨_, ⟨⟩⟩))
      exact hcloses.noticeEnd (hmid ▸ hnumber)
    | beginClosing other => exact hcloses.beginClosing other
    | closed other =>
      have htruthful := hcloses.toTruthful.goOn (.closed other) habout
      refine ⟨htruthful, hcloses.waits, hcloses.awaited, hcloses.returns, fun hreturned ↦ ?_⟩
      rw [Clock.perform, returned_note] at hreturned
      rcases List.mem_append.mp hreturned with hold | hnew
      · exact hcloses.returned hold
      · obtain rfl := List.mem_singleton.mp hnew
        change mid.dispatcher.inProgress = []
        rw [hmid]
        exact h.returns (hhas.resolve_right (by rintro ⟨_, ⟨⟩⟩))
    | _ => cases habout

theorem Closes.reaches (h : clock.Closes label) (hreaches : Reaches clock clock')
    (hmade : clock'.dispatcher.made = clock.dispatcher.made) : clock'.Closes label := by
  induction hreaches with
  | refl => exact h
  | @tail mid _ hreaches hstep ih =>
    have htruthful := h.toTruthful.reaches hreaches
    -- Nothing has been asked for until then either.
    have hmid : mid.dispatcher.made = clock.dispatcher.made :=
      Nat.le_antisymm (hmade ▸ (htruthful.step_dispatcher hstep).made_le htruthful.sound)
        ((h.toTruthful.reaches_dispatcher hreaches).made_le h.sound)
    exact (ih hmid).step hstep (hmade.trans hmid.symm)

/-- Somebody begins to close, of their own, or by an action that has become ready. -/
inductive Begins (label : ι) (clock : Clock σ ρ ι) : Clock σ ρ ι → Prop
  | call : Begins label clock (clock.beginClosing label)
  | perform {before after : List (Action σ ρ ι)} : clock.ready = before ++
      .beginClosing label :: after →
      Begins label clock ({ clock with ready := before ++ after }.beginClosing label)

theorem Begins.leads {begun : Clock σ ρ ι} (h : Begins label clock begun) :
    ∃ mid, Leads clock mid ∧ mid.dispatcher = clock.dispatcher ∧
    begun = mid.beginClosing label := by
  cases h with
  | call => exact ⟨clock, .refl clock, rfl, rfl⟩
  | perform hready => exact ⟨_, .without hready, rfl, rfl⟩

theorem Begins.dispatcher {begun : Clock σ ρ ι} (h : Begins label clock begun) :
    begun.dispatcher = clock.dispatcher.close := by
  obtain ⟨mid, -, hmid, rfl⟩ := h.leads
  rw [dispatcher_beginClosing, hmid]

/-- Somebody who has not closed before begins to. -/
theorem Truthful.closes {begun : Clock σ ρ ι} (h : clock.Truthful) (hnew : label ∉ clock.closers)
    (hbegin : Begins label clock begun) : begun.Closes label := by
  obtain ⟨mid, hmid, -, rfl⟩ := hbegin.leads
  have hleads : Leads clock (mid.move .close) := hmid.trans (Leads.move _ _) h.sound
  have htruthful := (h.leads hmid).beginClosing label
  have hwaits : (mid.beginClosing label).dispatcher.waits = [] := by
    rw [dispatcher_beginClosing, Dispatcher.waits_close (h.leads hmid).sound.waiting]
  have hclosing : label ∉ (mid.move .close).closing.map Prod.fst := by
    rw [hleads.closing]
    exact fun hmem ↦ hnew (List.mem_append_left _ (List.mem_append_left _ hmem))
  have hhas : ¬ (mid.move .close).Has (.closed label) := by
    rintro hhas
    have hmem := List.mem_append.mpr ((hleads.backed _ hhas).resolve_right id)
    exact hnew (List.mem_append_left _
      (List.mem_append_right _ (List.mem_filterMap.mpr ⟨_, hmem, rfl⟩)))
  have hreturned : label ∉ (mid.move .close).returned := by
    rw [hleads.returned]
    exact fun hmem ↦ hnew (List.mem_append_right _ hmem)
  obtain ⟨hnone, heq⟩ | heq := beginClosing_cases mid label
  · rw [heq] at htruthful hwaits ⊢
    exact ⟨htruthful, hwaits, fun runs hruns ↦ absurd (List.mem_map_of_mem hruns) hclosing,
      fun hmem ↦ absurd hmem hhas, fun _ ↦ hnone⟩
  · rw [heq] at htruthful hwaits ⊢
    refine ⟨htruthful, hwaits, fun runs hruns run hrun ↦ ?_, fun hmem ↦ absurd hmem hhas,
      fun hmem ↦ absurd hmem hreturned⟩
    rcases List.mem_append.mp hruns with hold | hnew
    · exact absurd (List.mem_map_of_mem hold) hclosing
    · rw [(Prod.mk.inj (List.mem_singleton.mp hnew)).2]
      exact List.mem_map_of_mem hrun

/-- What waits when somebody begins to close is never launched. -/
theorem Truthful.notMem_starts {begun final : Clock σ ρ ι} (h : clock.Truthful)
    (hnew : label ∉ clock.closers) (hbegin : Begins label clock begun)
    (hfinal : Reaches begun final) {n : Nat} (hn : n ∈ clock.dispatcher.waitingNumbers) :
    n ∉ final.dispatcher.starts.map Run.number := by
  have hcloses := h.closes hnew hbegin
  have hreaches := hcloses.toTruthful.reaches_dispatcher hfinal
  have hlt : n < begun.dispatcher.made := by
    rw [hbegin.dispatcher]
    exact Nat.lt_of_lt_of_le (h.sound.accounts.lt_of_mem_places n (List.mem_append_left _ hn))
      (Dispatcher.now_made_le_move h.sound.waiting .close).2
  have hgone : n ∉ begun.dispatcher.waits.map Wait.number := by
    rw [hcloses.waits]
    exact List.not_mem_nil
  have hlaunches : n ∉ begun.dispatcher.launches.map Run.number := by
    rw [hbegin.dispatcher, Dispatcher.launches, (Dispatcher.sameRuns_close h.sound.waiting).log]
    exact fun hmem ↦ List.disjoint_of_nodup_append h.distinct.nodup
      ((Dispatcher.sublist_flatMap_answers h.distinct.last).subset hmem) hn
  rintro hstarted
  obtain ⟨run, hrun, rfl⟩ := List.mem_map.mp hstarted
  refine hreaches.notMem_launches hcloses.sound hlt hgone hlaunches ?_
  exact List.mem_map_of_mem ((hreaches.sound hcloses.sound).mem_launches hrun)

/-- **When somebody who closes goes on, nothing is left but what cancelled tasks have left.** A
dispatcher has come to any state, and somebody begins to close. Things may take any course then, as
long as nothing is asked for. When the closing one goes on, the dispatcher is at rest: nothing
waits, no run is in progress, there are no locks, and every request has been settled, unless the
task of its run has been cancelled. The runs that had been launched when the closing began have
ended. Those whose tasks have returned have given their results to the requests that they answer,
those excepted that their callers had given up, and the others have left them without an answer.
What waited when the closing began is never started. -/
theorem closed_leaves_nothing {state : σ} {delay : Nat}
    {clock begun later : Clock σ ρ ι} {label : ι} (hclock : Reaches (ofState state delay) clock)
    (hnew : label ∉ clock.closers) (hbegin : Begins label clock begun)
    (hlater : Reaches begun later) (hmade : later.dispatcher.made = clock.dispatcher.made)
    (hreturned : label ∈ later.returned) :
    later.dispatcher.IsAtRest ∧
      (∀ run ∈ clock.dispatcher.inProgress, ∃ time ending,
        (time, Mark.ended run ending) ∈ later.dispatcher.log ∧
        ∀ n ∈ run.answers, match ending with
          | .returned result =>
            (n, .done result) ∈ later.dispatcher.settled ∨ n ∈ later.dispatcher.abandoned
          | .cancelled => n ∈ later.dispatcher.unanswered) ∧
      ∀ n ∈ clock.dispatcher.waitingNumbers, ∀ final, Reaches begun final →
        n ∉ final.dispatcher.starts.map Run.number := by
  have htruthful := (truthful_ofState state delay).reaches hclock
  have hcloses := htruthful.closes hnew hbegin
  have hmadeBegun : begun.dispatcher.made = clock.dispatcher.made := by
    rw [hbegin.dispatcher]
    exact (Dispatcher.now_made_cancels htruthful.sound.waiting
      (clock.dispatcher.handles.map Prod.fst)).2
  have hend := hcloses.reaches hlater (hmade.trans hmadeBegun.symm)
  have hrest := hend.returned hreturned
  refine ⟨hend.sound.isAtRest hend.waits hrest, fun run hrun ↦ ?_,
    fun n hn final hfinal ↦ htruthful.notMem_starts hnew hbegin hfinal hn⟩
  have hdispatcher : Dispatcher.Reaches clock.dispatcher later.dispatcher := by
    refine Relation.ReflTransGen.trans ?_ (hcloses.toTruthful.reaches_dispatcher hlater)
    rw [hbegin.dispatcher]
    exact Dispatcher.reaches_move clock.dispatcher .close
  have hlaunched := hdispatcher.mem_launches htruthful.sound
    (htruthful.sound.mem_launches_iff.mpr (.inr hrun))
  have hended := (hend.sound.mem_launches_iff.mp hlaunched).resolve_right
    (hrest ▸ List.not_mem_nil)
  obtain ⟨⟨time, mark⟩, hmark, hend?⟩ := List.mem_filterMap.mp hended
  cases mark with
  | ended run' ending =>
    obtain rfl := Option.some.inj hend?
    refine ⟨time, ending, hmark, fun n hn ↦ ?_⟩
    cases ending with
    | returned result => exact hend.answered time run' result hmark n hn
    | cancelled => exact Dispatcher.mem_unanswered.mpr ⟨time, run', hmark, hn⟩
  | _ => cases hend?

def giving (value : Nat) (duration : Option Nat) : Task Unit Nat Nat :=
  ⟨value, duration, fun state ↦ (state, .returned (some value))⟩

/-- A clock with a run in progress, one behind it, one that has just been launched, and a request
that waits. -/
def busy : Clock Unit Nat Nat :=
  Clock.run 9 ((ofState () 5).planInTurn
    [(0, .request "a" (giving 10 (some 100))), (10, .request "a" (giving 11 none)),
     (20, .request "b" (giving 12 (some 3))), (22, .request "c" (giving 13 none))])

theorem closed_leaves_nothing_busy :
    (busy.dispatcher.visits.map fun v ↦ (v.run.number, v.isRunning)) = [(0, true), (1, false)] ∧
      busy.dispatcher.launched.map Run.number = [2] ∧ busy.dispatcher.waitingNumbers = [3] ∧
      (Clock.run 12 (busy.beginClosing 0)).returned = [0] ∧
      (Clock.run 12 (busy.beginClosing 0)).dispatcher.settledNumbers = [3, 2, 0, 1] ∧
      (Clock.run 12 (busy.beginClosing 0)).dispatcher.IsAtRest :=
  ⟨by decide +kernel, by decide +kernel, by decide +kernel, by decide +kernel, by decide +kernel,
    (closed_leaves_nothing ((reaches_planInTurn _ _).trans (reaches_run 9 _))
      (by decide +kernel) .call (reaches_run 12 _) (by decide +kernel) (by decide +kernel)).1⟩

/-- A clock on which the task for `a` has asked for `b` and awaits it. It is cancelled when `b`
is. -/
def awaiting : Clock Unit Nat Nat :=
  Clock.run 4 ((ofState () 5).planInTurn
    [(0, .request "a" ⟨10, some 2, fun state ↦ (state, .cancelled)⟩),
     (6, .request "b" (giving 11 none))])

/-- Closing cancels `b`, and with it the task for `a`. When the closing one goes on, the request for
`a`, which nobody has given up, has not been settled. -/
theorem closed_leaves_unanswered :
    (awaiting.dispatcher.visits.map fun v ↦ (v.run.number, v.isRunning)) = [(0, true)] ∧
      awaiting.dispatcher.waitingNumbers = [1] ∧
      (Clock.run 12 (awaiting.beginClosing 0)).dispatcher.made = awaiting.dispatcher.made ∧
      (Clock.run 12 (awaiting.beginClosing 0)).returned = [0] ∧
      (Clock.run 12 (awaiting.beginClosing 0)).dispatcher.abandoned = [] ∧
      (Clock.run 12 (awaiting.beginClosing 0)).dispatcher.settledNumbers = [1] ∧
      ¬ ∀ n < (Clock.run 12 (awaiting.beginClosing 0)).dispatcher.made,
        n ∈ (Clock.run 12 (awaiting.beginClosing 0)).dispatcher.settledNumbers := by
  refine ⟨by decide +kernel, by decide +kernel, by decide +kernel, by decide +kernel,
    by decide +kernel, by decide +kernel, ?_⟩
  decide +kernel

end Clock

end MissionIndex.Schedule
