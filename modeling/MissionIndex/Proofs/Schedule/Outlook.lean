import Mathlib.Data.List.Basic
import Mathlib.Data.Multiset.AddSub
import MissionIndex.Schedule.Clock

/-!
# What is to come for a key

From the events for one key, and the changes of the delay, one can tell beforehand what comes of
them, as if there were no other keys. An `Outlook` is what such a forecast goes by: the delay, and
the job that waits. Going through the events it gives two things, what is answered and cancelled at
once (`Outlook.entries`) and the jobs that are launched (`Outlook.jobs`). The jobs are then served
one after another (`served`): each begins when it has been launched and the one before it has ended,
whichever is later.

The two parts make up one log, since at one time what events bring about comes before what runs
bring about, and so the log is known by its parts (`eq_of_filter_eq`).

## What shows

A `Sight` is what shows of a key at some moment. It meets a forecast (`Sight.Meets`) if what has
come and what is to come make up what was told, and if the jobs that have been launched and are not
done are those in the queue. There are five ways in which this goes on: time passes, a task is
launched, starts or ends, or an event happens.
-/

namespace MissionIndex.Schedule

variable {σ ρ ι : Type}

/-! ## Events and entries for a key -/

def Event.key? : Event σ ρ ι → Option String
  | .request key _ | .cancel key | .ask key => some key
  | _ => none

def Event.concerns (key : String) (event : Event σ ρ ι) : Bool := event.key?.all (· == key)

/-- Whether an entry is about a key, where names tell the keys that they belong to. -/
def Entry.concerns (keyOf : ι → String) (key : String) : Entry ρ ι → Bool
  | .answered other _ => other == key
  | .started label | .ended label | .settled label _ | .closed label | .changed label =>
      keyOf label == key

theorem Entry.exists_concerns (keyOf : ι → String) (entry : Entry ρ ι) :
    ∃ own, ∀ key, entry.concerns keyOf key = (own == key) := by
  cases entry <;> exact ⟨_, fun _ ↦ rfl⟩

/-- Whether an entry comes from a run, and not at once from an event. -/
def Entry.isOfRun : Entry ρ ι → Bool
  | .started _ | .ended _ | .settled _ (.done _) => true
  | _ => false

/-- Among the entries of a log those that are about a key. -/
def logFor (keyOf : ι → String) (key : String) (log : List (Nat × Entry ρ ι)) :
    List (Nat × Entry ρ ι) :=
  log.filter (·.2.concerns keyOf key)

/-- What a log tells about a key that comes at once from events. -/
def atOnce (keyOf : ι → String) (key : String) (log : List (Nat × Entry ρ ι)) :
    List (Nat × Entry ρ ι) :=
  (logFor keyOf key log).filter (!·.2.isOfRun)

def ofRuns (keyOf : ι → String) (key : String) (log : List (Nat × Entry ρ ι)) :
    List (Nat × Entry ρ ι) :=
  (logFor keyOf key log).filter (·.2.isOfRun)

theorem seen_append (keyOf : ι → String) (key : String) (log : List (Nat × Entry ρ ι))
    {more : List (Nat × Entry ρ ι)} {isAbout isOfRun : Bool}
    (habout : ∀ e ∈ more, e.2.concerns keyOf key = isAbout)
    (hruns : ∀ e ∈ more, e.2.isOfRun = isOfRun) :
    atOnce keyOf key (log ++ more) = atOnce keyOf key log ++
      (if isAbout && !isOfRun then more else []) ∧
      ofRuns keyOf key (log ++ more) = ofRuns keyOf key log ++
        (if isAbout && isOfRun then more else []) := by
  have hmore : ∀ p : Nat × Entry ρ ι → Bool, ∀ b, (∀ e ∈ more, p e = b) →
      more.filter p = if b then more else [] := by
    intro p b hp
    cases b with
    | false => exact List.filter_eq_nil_iff.mpr fun e he ↦ by simp [hp e he]
    | true => exact List.filter_eq_self.mpr hp
  have hparts : ∀ p : Nat × Entry ρ ι → Bool, ∀ b, (∀ e ∈ more, p e = b) →
      (logFor keyOf key (log ++ more)).filter p
        = (logFor keyOf key log).filter p ++ if isAbout && b then more else [] := by
    intro p b hp
    rw [logFor, List.filter_append, ← logFor, List.filter_append, hmore _ isAbout habout]
    refine congrArg _ ?_
    cases isAbout with
    | false => rfl
    | true => exact hmore p b hp
  exact ⟨hparts _ _ fun e he ↦ by rw [hruns e he], hparts _ _ hruns⟩

section Seen

variable {keyOf : ι → String} {own key : String} {more : List (Nat × Entry ρ ι)}

theorem seen_for (log : List (Nat × Entry ρ ι)) {isOfRun : Bool}
    (habout : ∀ e ∈ more, e.2.concerns keyOf own = (key == own))
    (hruns : ∀ e ∈ more, e.2.isOfRun = isOfRun) :
    (key ≠ own → atOnce keyOf own (log ++ more) = atOnce keyOf own log ∧
        ofRuns keyOf own (log ++ more) = ofRuns keyOf own log) ∧
      (key = own →
        atOnce keyOf own (log ++ more) = atOnce keyOf own log ++ (if isOfRun then [] else more) ∧
        ofRuns keyOf own (log ++ more)
          = ofRuns keyOf own log ++ (if isOfRun then more else [])) := by
  obtain ⟨hatOnce, hofRuns⟩ := seen_append keyOf own log habout hruns
  rw [hatOnce, hofRuns]
  refine ⟨fun hkey ↦ by simp [hkey], fun hkey ↦ ?_⟩
  cases isOfRun <;> simp [hkey]

end Seen

/-! ## Waiting -/

/-- A task to be run, and what the requests are called that it answers. -/
structure Job (σ ρ ι : Type) where
  /-- When the wait is over. -/
  launch : Nat
  task : Task σ ρ ι
  labels : List ι

/-- How long requests for a key wait, and what waits. -/
structure Outlook (σ ρ ι : Type) where
  delay : Nat
  pending : Option (Job σ ρ ι) := none

namespace Outlook

/-- What still waits at a time. Waits that end at that time do not end before its events. -/
def leftAt (outlook : Outlook σ ρ ι) (time : Nat) : Outlook σ ρ ι :=
  { outlook with pending := outlook.pending.filter (time ≤ ·.launch) }

/-- What has been launched before a time. -/
def goneBy (outlook : Outlook σ ρ ι) (time : Nat) : List (Job σ ρ ι) :=
  (outlook.pending.filter (·.launch < time)).toList

def after (outlook : Outlook σ ρ ι) (time : Nat) : Event σ ρ ι → Outlook σ ρ ι
  | .request _ task =>
    { outlook with
      pending := some ⟨time + outlook.delay, task, (outlook.pending.elim [] Job.labels) ++
        [task.label]⟩ }
  | .cancel _ => { outlook with pending := none }
  | .setDelay delay => { outlook with delay }
  | _ => outlook

def brings (outlook : Outlook σ ρ ι) (time : Nat) : Event σ ρ ι → List (Nat × Entry ρ ι)
  | .cancel _ => (outlook.pending.elim [] Job.labels).map fun label ↦
    (time, .settled label .cancelled)
  | .ask key => [(time, .answered key outlook.pending.isSome)]
  | _ => []

/-- What is answered and cancelled in the course of events. -/
def entries : Outlook σ ρ ι → List (Nat × Event σ ρ ι) → List (Nat × Entry ρ ι)
  | _, [] => []
  | outlook, (time, event) :: rest =>
    (outlook.leftAt time).brings time event ++ ((outlook.leftAt time).after time event).entries rest

/-- What is launched in the course of events and after them. -/
def jobs : Outlook σ ρ ι → List (Nat × Event σ ρ ι) → List (Job σ ρ ι)
  | outlook, [] => outlook.pending.toList
  | outlook, (time, event) :: rest =>
    outlook.goneBy time ++ ((outlook.leftAt time).after time event).jobs rest

variable {delay time : Nat} {job : Job σ ρ ι} {events : List (Nat × Event σ ρ ι)}

theorem entries_launch (h : ∀ e ∈ events, job.launch < e.1) :
    entries ⟨delay, some job⟩ events = entries ⟨delay, none⟩ events := by
  cases events with
  | nil => rfl
  | cons e rest =>
    have hlt := h e List.mem_cons_self
    simp only [entries, leftAt, Option.filter, Nat.not_le.mpr hlt, decide_false,
      Bool.false_eq_true, if_false]

theorem jobs_launch (h : ∀ e ∈ events, job.launch < e.1) :
    jobs ⟨delay, some job⟩ events = job :: jobs ⟨delay, none⟩ events := by
  cases events with
  | nil => rfl
  | cons e rest =>
    have hlt := h e List.mem_cons_self
    simp only [jobs, leftAt, goneBy, Option.filter, Nat.not_le.mpr hlt, hlt, decide_true,
      decide_false, Bool.false_eq_true, if_true, if_false, Option.toList_some, Option.toList_none,
      List.nil_append,
      List.singleton_append]

theorem nothing_of_key?_eq_none (delay : Nat) (h : ∀ e ∈ events, e.2.key? = none) :
    entries ⟨delay, none⟩ events = [] ∧ jobs ⟨delay, none⟩ events = [] := by
  induction events generalizing delay with
  | nil => exact ⟨rfl, rfl⟩
  | cons e rest ih =>
    obtain ⟨time, event⟩ := e
    obtain ⟨hevent, hrest⟩ := List.forall_mem_cons.mp h
    cases event with
    | request | cancel | ask => cases hevent
    | setDelay delay => exact ih delay hrest
    | close | change => exact ih delay hrest

theorem leftAt_of_le {outlook : Outlook σ ρ ι} (h : ∀ job, outlook.pending = some job →
    time ≤ job.launch) :
    outlook.leftAt time = outlook := by
  obtain ⟨delay, pending⟩ := outlook
  cases pending with
  | none => rfl
  | some job => simp only [leftAt, Option.filter, h job rfl, decide_true, if_true]

theorem goneBy_of_le {outlook : Outlook σ ρ ι} (h : ∀ job, outlook.pending = some job →
    time ≤ job.launch) :
    outlook.goneBy time = [] := by
  obtain ⟨delay, pending⟩ := outlook
  cases pending with
  | none => rfl
  | some job =>
    simp only [goneBy, Option.filter, Nat.not_lt.mpr (h job rfl), decide_false,
      Bool.false_eq_true, if_false, Option.toList_none]

end Outlook

/-! ## Serving -/

/-- What shows of an end for the requests that it answers. -/
def Ending.entries (labels : List ι) (time : Nat) : Ending ρ → List (Nat × Entry ρ ι)
  | .returned result => labels.map fun label ↦ (time, .settled label (.done result))
  | .cancelled => []

theorem Ending.forall_mem_entries {labels : List ι} {time : Nat} {p : Nat × Entry ρ ι → Prop}
    (h : ∀ label ∈ labels, ∀ result, p (time, .settled label (.done result))) (ending : Ending ρ) :
    ∀ e ∈ ending.entries labels time, p e := by
  cases ending with
  | returned result => exact List.forall_mem_map.mpr fun label hlabel ↦ h label hlabel result
  | cancelled => exact nofun

namespace Job

/-- When a job begins where the one before it has ended at a time. -/
def begins (job : Job σ ρ ι) (free : Nat) : Nat := max free job.launch

def ends (job : Job σ ρ ι) (free : Nat) : Nat := job.begins free + job.task.duration.getD 0

/-- What the end of a job brings about, in a state. -/
def conclusion (job : Job σ ρ ι) (time : Nat) (state : σ) : List (Nat × Entry ρ ι) :=
  (time, .ended job.task.label) :: (job.task.act state).2.entries job.labels time

/-- What a job brings about. -/
def entries (job : Job σ ρ ι) (free : Nat) (state : σ) : List (Nat × Entry ρ ι) :=
  (job.begins free, .started job.task.label) :: job.conclusion (job.ends free) state

end Job

/-- When the last of the jobs has ended that are served one after another. -/
def freeAfter (jobs : List (Job σ ρ ι)) : Nat := jobs.foldl (fun free job ↦ job.ends free) 0

def stateAfter (state : σ) (jobs : List (Job σ ρ ι)) : σ :=
  jobs.foldl (fun state job ↦ (job.task.act state).1) state

/-- What the jobs bring about that are served after some others. -/
def servedAfter (state : σ) (before : List (Job σ ρ ι)) : List (Job σ ρ ι) → List (Nat × Entry ρ ι)
  | [] => []
  | job :: rest => job.entries (freeAfter before) (stateAfter state before) ++
      servedAfter state (before ++ [job]) rest

def served (state : σ) (jobs : List (Job σ ρ ι)) : List (Nat × Entry ρ ι) :=
  servedAfter state [] jobs

theorem freeAfter_concat (jobs : List (Job σ ρ ι)) (job : Job σ ρ ι) :
    freeAfter (jobs ++ [job]) = job.ends (freeAfter jobs) := by
  rw [freeAfter, List.foldl_append]
  rfl

theorem stateAfter_concat (state : σ) (jobs : List (Job σ ρ ι)) (job : Job σ ρ ι) :
    stateAfter state (jobs ++ [job]) = (job.task.act (stateAfter state jobs)).1 := by
  rw [stateAfter, List.foldl_append]
  rfl

theorem served_concat (state : σ) (jobs : List (Job σ ρ ι)) (job : Job σ ρ ι) :
    served state (jobs ++ [job]) = served state jobs ++
      job.entries (freeAfter jobs) (stateAfter state jobs) := by
  suffices h : ∀ before, servedAfter state before (jobs ++ [job]) = servedAfter state before jobs
      ++ job.entries (freeAfter (before ++ jobs)) (stateAfter state (before ++ jobs)) from h []
  induction jobs with
  | nil => intro before; simp [servedAfter]
  | cons first rest ih => intro before; simp [servedAfter, ih]

/-! ## What shows of a key -/

/-- What is told of a key beforehand. -/
structure Forecast (σ ρ ι ν : Type) where
  key : String
  /-- The keys that names belong to. -/
  keyOf : ι → String
  /-- The part of a state that the tasks for the key look at and change. -/
  view : σ → ν
  /-- The state at the beginning. -/
  state : σ
  entries : List (Nat × Entry ρ ι)
  jobs : List (Job σ ρ ι)

/-- What shows of a key at some moment. -/
structure Sight (σ ρ ι ν : Type) where
  time : Nat
  state : ν
  outlook : Outlook σ ρ ι
  /-- The tasks that have been launched and have not ended, with what the requests are called that
  they answer. -/
  queue : List (Task σ ρ ι × List ι)
  /-- Whether the first of these tasks has started. -/
  isServing : Bool
  /-- When the tasks end that have started. -/
  ends : Multiset Nat
  /-- What is in the log from events. -/
  atOnce : List (Nat × Entry ρ ι)
  /-- What is in the log from runs. -/
  ofRuns : List (Nat × Entry ρ ι)

namespace Sight

variable {ν : Type}

/-- How far the jobs have come that are served one after another, where some are done and some are
left. -/
inductive Stands (state : σ) (done left : List (Job σ ρ ι)) (sight : Sight σ ρ ι ν) : Prop
  | idle : sight.isServing = false → sight.ends = 0 → sight.ofRuns = served state done →
      (∀ job ∈ left.head?, job.begins (freeAfter done) = sight.time) → Stands state done left sight
  | serving {job : Job σ ρ ι} {later : List (Job σ ρ ι)} : sight.isServing = true →
      left = job :: later →
      sight.ends = {job.ends (freeAfter done)} →
      sight.ofRuns = served state done ++ [(job.begins (freeAfter done), .started job.task.label)] →
      Stands state done left sight

/-- What shows is as it was told. -/
structure Meets (forecast : Forecast σ ρ ι ν) (done left : List (Job σ ρ ι))
    (events : List (Nat × Event σ ρ ι)) (sight : Sight σ ρ ι ν) : Prop where
  entries : sight.atOnce ++ sight.outlook.entries events = forecast.entries
  jobs : done ++ left ++ sight.outlook.jobs events = forecast.jobs
  queue : left.map (fun job ↦ (job.task, job.labels)) = sight.queue
  launched : ∀ job ∈ left, job.launch ≤ sight.time
  free : freeAfter done ≤ sight.time
  state : sight.state = forecast.view (stateAfter forecast.state done)
  stands : Stands forecast.state done left sight

namespace Meets

variable {forecast : Forecast σ ρ ι ν} {done left : List (Job σ ρ ι)}
    {events : List (Nat × Event σ ρ ι)}
  {sight : Sight σ ρ ι ν} {task : Task σ ρ ι} {labels : List ι} {later : List (Task σ ρ ι × List ι)}

/-- Time goes on while a task is running, or while there is nothing to be done. -/
theorem pass (h : Meets forecast done left events sight) {time : Nat} (hle : sight.time ≤ time)
    (hstill : time = sight.time ∨ sight.isServing = true ∨ sight.queue = []) :
    Meets forecast done left events { sight with time } := by
  refine ⟨h.entries, h.jobs, h.queue, fun job hjob ↦ Nat.le_trans (h.launched job hjob) hle,
    Nat.le_trans h.free hle, h.state, ?_⟩
  cases h.stands with
  | idle hidle hends hruns hbegins =>
    refine .idle hidle hends hruns fun job hjob ↦ ?_
    rcases hstill with rfl | hserving | hnone
    · exact hbegins job hjob
    · rw [hidle] at hserving
      cases hserving
    · have hqueue := h.queue
      rw [hnone, List.map_eq_nil_iff] at hqueue
      rw [hqueue] at hjob
      cases hjob
  | serving hserving hleft hends hruns => exact .serving hserving hleft hends hruns

/-- A wait ends, and a task is launched. -/
theorem launch (h : Meets forecast done left events sight) {job : Job σ ρ ι}
    (hpending : sight.outlook.pending = some job) (hnow : job.launch = sight.time)
    (hlater : ∀ e ∈ events, sight.time < e.1) :
    Meets forecast done (left ++ [job]) events
      { sight with
        outlook := { sight.outlook with pending := none }
        queue := sight.queue ++ [(job.task, job.labels)] } := by
  have houtlook : sight.outlook = ⟨sight.outlook.delay, some job⟩ := by rw [← hpending]
  have hlater' : ∀ e ∈ events, job.launch < e.1 := by rwa [hnow]
  have hentries := h.entries
  have hjobs := h.jobs
  rw [houtlook] at hentries hjobs
  rw [Outlook.entries_launch hlater'] at hentries
  rw [Outlook.jobs_launch hlater'] at hjobs
  refine ⟨hentries, ?_, ?_, ?_, h.free, h.state, ?_⟩
  · rw [← hjobs]
    simp only [List.append_assoc, List.singleton_append]
  · rw [List.map_append, h.queue]
    rfl
  · exact List.forall_mem_append.mpr ⟨h.launched, List.forall_mem_singleton.mpr (Nat.le_of_eq hnow)⟩
  · cases h.stands with
    | idle hidle hends hruns hbegins =>
      refine .idle hidle hends hruns fun first hfirst ↦ ?_
      cases left with
      | nil =>
        obtain rfl := Option.some.inj hfirst
        exact (Nat.max_eq_right (hnow ▸ h.free)).trans hnow
      | cons => exact hbegins first hfirst
    | serving hserving hleft hends hruns =>
        exact .serving hserving (by rw [hleft, List.cons_append]) hends hruns

theorem begin (h : Meets forecast done left events sight) (hidle : sight.isServing = false)
    (hqueue : sight.queue = (task, labels) :: later) :
    Meets forecast done left events
      { sight with
        isServing := true
        ends := (sight.time + task.duration.getD 0) ::ₘ sight.ends
        ofRuns := sight.ofRuns ++ [(sight.time, .started task.label)] } := by
  have hmap := h.queue
  rw [hqueue] at hmap
  obtain ⟨job, rest, rfl, hjob, -⟩ := List.map_eq_cons_iff.mp hmap
  obtain ⟨rfl, rfl⟩ := Prod.mk.inj hjob
  refine ⟨h.entries, h.jobs, h.queue, h.launched, h.free, h.state, ?_⟩
  cases h.stands with
  | idle _ hends hruns hbegins =>
    have hnow := hbegins job rfl
    refine .serving rfl rfl ?_ ?_
    · rw [hends, Job.ends, hnow]
      rfl
    · rw [hruns, hnow]
  | serving hserving =>
    rw [hidle] at hserving
    cases hserving

/-- The first task ends, in a way that comes from the state as it shows. -/
theorem finish (h : Meets forecast done left events sight) (hserving : sight.isServing = true)
    (hqueue : sight.queue = (task, labels) :: later) {ends : Multiset Nat}
    (hends : sight.ends = sight.time ::ₘ ends) {ending : Ending ρ} {state : ν}
    (hact : ∀ s, forecast.view s = sight.state →
      (task.act s).2 = ending ∧ forecast.view (task.act s).1 = state) :
    ∃ done left, Meets forecast done left events
      { sight with
        state
        queue := later
        isServing := false
        ends
        ofRuns := sight.ofRuns
          ++ ((sight.time, .ended task.label) :: ending.entries labels sight.time) } := by
  have hmap := h.queue
  rw [hqueue] at hmap
  obtain ⟨job, rest, rfl, hjob, hlater⟩ := List.map_eq_cons_iff.mp hmap
  obtain ⟨rfl, rfl⟩ := Prod.mk.inj hjob
  obtain ⟨hending, hstate⟩ := hact _ h.state.symm
  cases h.stands with
  | idle hidle =>
    rw [hserving] at hidle
    cases hidle
  | serving _ hleft hone hruns =>
    obtain ⟨rfl, rfl⟩ := List.cons.inj hleft
    obtain ⟨hnow, rfl⟩ := Multiset.singleton_eq_cons_iff _ |>.mp (hone.symm.trans hends)
    have hfree : freeAfter (done ++ [job]) = sight.time := by rw [freeAfter_concat, hnow]
    refine ⟨done ++ [job], rest, h.entries, ?_, hlater,
      fun other hother ↦ h.launched other (List.mem_cons_of_mem _ hother), Nat.le_of_eq hfree, ?_,
      .idle rfl rfl ?_ fun next hnext ↦ ?_⟩
    · rw [← h.jobs]
      simp only [List.append_assoc, List.singleton_append]
    · rw [stateAfter_concat, hstate]
    · rw [served_concat, Job.entries, Job.conclusion, hnow, hending, hruns]
      simp only [List.append_assoc, List.singleton_append]
    · rw [hfree]
      exact Nat.max_eq_left (h.launched next (List.mem_cons_of_mem _ (List.mem_of_mem_head? hnext)))

theorem event {event : Event σ ρ ι}
    (h : Meets forecast done left ((sight.time, event) :: events) sight)
    (hpending : ∀ job, sight.outlook.pending = some job → sight.time ≤ job.launch) :
    Meets forecast done left events
      { sight with
        outlook := sight.outlook.after sight.time event
        atOnce := sight.atOnce ++ sight.outlook.brings sight.time event } := by
  have hentries := h.entries
  have hjobs := h.jobs
  rw [Outlook.entries, Outlook.leftAt_of_le hpending] at hentries
  rw [Outlook.jobs, Outlook.leftAt_of_le hpending, Outlook.goneBy_of_le hpending, List.nil_append]
    at hjobs
  refine ⟨?_, hjobs, h.queue, h.launched, h.free, h.state, ?_⟩
  · rw [← hentries, List.append_assoc]
  · cases h.stands with
    | idle hidle hends hruns hbegins => exact .idle hidle hends hruns hbegins
    | serving hserving hleft hends hruns => exact .serving hserving hleft hends hruns

theorem all (h : Meets forecast done left [] sight) (hpending : sight.outlook.pending = none)
    (hqueue : sight.queue = []) :
    sight.atOnce = forecast.entries ∧ sight.ofRuns = served forecast.state forecast.jobs := by
  have hentries := h.entries
  have hjobs := h.jobs
  have hleft : left = [] := List.map_eq_nil_iff.mp (h.queue.trans hqueue)
  subst hleft
  rw [Outlook.entries, List.append_nil] at hentries
  rw [Outlook.jobs, hpending, Option.toList_none, List.append_nil, List.append_nil] at hjobs
  refine ⟨hentries, ?_⟩
  rw [← hjobs]
  cases h.stands with
  | idle _ _ hruns => exact hruns
  | serving _ hleft => cases hleft

end Meets

end Sight

/-! ## One log from two parts -/

/-- Whether one entry may come before another in a log: no later, and at one time no run before an
event. -/
def MayPrecede (a b : Nat × Entry ρ ι) : Prop :=
  a.1 < b.1 ∨ a.1 = b.1 ∧ (a.2.isOfRun = true → b.2.isOfRun = true)

/-- Lists are known by the two parts that a property divides them into if the order between the
parts is settled. -/
theorem eq_of_filter_eq {α : Type} {p : α → Bool} {r : α → α → Prop}
    (hr : ∀ a b, p a ≠ p b → r a b → ¬ r b a) {as bs : List α} (has : as.Pairwise r)
    (hbs : bs.Pairwise r) (hp : as.filter p = bs.filter p)
    (hnot : as.filter (!p ·) = bs.filter (!p ·)) : as = bs := by
  induction as generalizing bs with
  | nil =>
    refine (List.eq_nil_iff_forall_not_mem.mpr fun b hb ↦ ?_).symm
    cases hpb : p b with
    | true => exact List.ne_nil_of_mem (List.mem_filter.mpr ⟨hb, hpb⟩) hp.symm
    | false => exact List.ne_nil_of_mem (List.mem_filter.mpr ⟨hb, by rw [hpb]; rfl⟩) hnot.symm
  | cons a as ih =>
    -- Wherever `a` is among the others, it is in its part of them.
    have hmem : ∀ cs ds : List α, (∀ q, q = p ∨ q = (!p ·) → cs.filter q = ds.filter q) →
        ∀ c ∈ cs, c ∈ ds := by
      intro cs ds hsame c hc
      cases hpc : p c with
      | true =>
        have hc' : c ∈ ds.filter p := hsame p (.inl rfl) ▸ List.mem_filter.mpr ⟨hc, hpc⟩
        exact (List.mem_filter.mp hc').1
      | false =>
        have hc' : c ∈ ds.filter (!p ·) :=
          hsame (!p ·) (.inr rfl) ▸ List.mem_filter.mpr ⟨hc, by rw [hpc]; rfl⟩
        exact (List.mem_filter.mp hc').1
    have hsame : ∀ q, q = p ∨ q = (!p ·) → (a :: as).filter q = bs.filter q := by
      rintro q (rfl | rfl)
      · exact hp
      · exact hnot
    cases bs with
    | nil =>
      have ha := hmem (a :: as) [] hsame a List.mem_cons_self
      cases ha
    | cons b bs =>
      have hhead : p a = p b := by
        by_contra hne
        have ha := (List.mem_cons.mp (hmem _ _ hsame a List.mem_cons_self)).resolve_left fun he ↦
          hne (he ▸ rfl)
        have hb := (List.mem_cons.mp
          (hmem _ _ (fun q hq ↦ (hsame q hq).symm) b List.mem_cons_self)).resolve_left
            fun he ↦ hne (he ▸ rfl)
        exact hr a b hne ((List.pairwise_cons.mp has).1 b hb) ((List.pairwise_cons.mp hbs).1 a ha)
      have hparts : a = b ∧ as.filter p = bs.filter p ∧ as.filter (!p ·) = bs.filter (!p ·) := by
        rw [List.filter_cons, List.filter_cons, ← hhead] at hp hnot
        cases hpa : p a with
        | true =>
          simp only [hpa, if_true, Bool.not_true, Bool.false_eq_true, if_false] at hp hnot
          exact ⟨(List.cons.inj hp).1, (List.cons.inj hp).2, hnot⟩
        | false =>
          simp only [hpa, if_true, Bool.not_false, Bool.false_eq_true, if_false] at hp hnot
          exact ⟨(List.cons.inj hnot).1, hp, (List.cons.inj hnot).2⟩
      obtain ⟨rfl, hp, hnot⟩ := hparts
      rw [ih (List.pairwise_cons.mp has).2 (List.pairwise_cons.mp hbs).2 hp hnot]

theorem MayPrecede.not_of_ne {a b : Nat × Entry ρ ι} (hne : a.2.isOfRun ≠ b.2.isOfRun)
    (h : MayPrecede a b) :
    ¬ MayPrecede b a := by
  rintro (hlt | ⟨heq, hba⟩)
  · rcases h with hlt' | ⟨heq, -⟩
    · exact Nat.lt_asymm hlt hlt'
    · exact Nat.lt_irrefl _ (heq ▸ hlt)
  · rcases h with hlt | ⟨-, hab⟩
    · exact Nat.lt_irrefl _ (heq ▸ hlt)
    · exact hne (Bool.eq_iff_iff.mpr ⟨hab, hba⟩)

end MissionIndex.Schedule
