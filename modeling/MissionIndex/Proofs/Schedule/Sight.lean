import MissionIndex.Proofs.Schedule.Outlook
import MissionIndex.Proofs.Schedule.Pace

/-!
# What shows of a key

What is to be seen of one key on a clock (`sight`), and what each step does to it. Steps that are
made for other keys leave it as it is, but for the time.

What tasks leave to each other is not for a dispatcher to keep apart. It is assumed of them that the
tasks for other keys do not touch what those for the key look at (`Task.Suits`).
-/

namespace MissionIndex.Schedule

variable {σ ρ ι ν : Type}

/-- The task of a request for a key is called by that key. Where it is the key `own`, what the task
does depends on a part of the state, and tasks for other keys leave that part as it is. -/
structure Task.Suits (keyOf : ι → String) (view : σ → ν) (own key : String) (task : Task σ ρ ι) :
    Prop where
  label : keyOf task.label = key
  looks : key = own → ∀ s s', view s = view s' →
    (task.act s).2 = (task.act s').2 ∧ view (task.act s).1 = view (task.act s').1
  leaves : key ≠ own → ∀ s, view (task.act s).1 = view s

/-- An event is a call, and the task that comes with a request is suitable. -/
def Event.Suits (keyOf : ι → String) (view : σ → ν) (own : String) : Event σ ρ ι → Prop
  | .request key task => task.Suits keyOf view own key
  | event => event.isCall = true

theorem Event.Suits.isCall {keyOf : ι → String} {view : σ → ν} {own : String} {event : Event σ ρ ι}
    (h : event.Suits keyOf view own) : event.isCall = true := by
  cases event with
  | request => rfl
  | _ => exact h

/-! ## Runs for a key -/

namespace Dispatcher

variable {τ : Type} {d d' : Dispatcher τ ρ} {run : Run τ} {key : String}

/-- The runs for a key that have been launched and have not ended, in the order in which they are
served. -/
def queueFor (d : Dispatcher τ ρ) (key : String) : List (Run τ) :=
  (d.line key).map Visit.run ++ runsFor key d.launched

/-- The runs for a key that have started and have not ended. -/
def servingFor (d : Dispatcher τ ρ) (key : String) : List (Run τ) :=
  ((d.line key).filter (·.isRunning)).map Visit.run

theorem Gated.servingFor (h : d.Gated) (key : String) :
    (d.servingFor key).length ≤ 1 ∧ d.servingFor key <+: d.queueFor key := by
  obtain ⟨hone, hfront⟩ := h.filter_isRunning key
  refine ⟨?_, (hfront.map Visit.run).trans (List.prefix_append _ _)⟩
  rw [Dispatcher.servingFor, List.length_map]
  exact hone

theorem mem_inProgress_of_mem_queueFor (h : run ∈ d.queueFor key) : run ∈ d.inProgress := by
  rcases List.mem_append.mp h with hline | hlaunched
  · obtain ⟨v, hv, rfl⟩ := List.mem_map.mp hline
    exact List.mem_append_right _ (List.mem_map_of_mem (mem_line.mp hv).1)
  · exact List.mem_append_left _ (List.mem_filter.mp hlaunched).1

theorem Sound.queue_of_log (h : d.Sound) (h' : d'.Sound) {marks : List (Nat × Mark τ ρ)}
    (hlog : d'.log = d.log ++ marks) (key : String) :
    d.queueFor key ++ runsFor key (marks.filterMap (·.2.launch?))
        = runsFor key (marks.filterMap (·.2.end?)) ++ d'.queueFor key ∧
      d.servingFor key ++ runsFor key (marks.filterMap (·.2.start?))
        = runsFor key (marks.filterMap (·.2.end?)) ++ d'.servingFor key := by
  have hlaunches : d'.launches = d.launches ++ marks.filterMap (·.2.launch?) := by
    rw [launches, hlog, List.filterMap_append, launches]
  have hstarts : d'.starts = d.starts ++ marks.filterMap (·.2.start?) := by
    rw [starts, hlog, List.filterMap_append, starts]
  have hends : d'.ends = d.ends ++ marks.filterMap (·.2.end?) := by
    rw [ends, hlog, List.filterMap_append, ends]
  have hqueue : runsFor key d'.launches = runsFor key d'.ends ++ d'.queueFor key :=
    h'.inOrder.launches key
  have hserving : runsFor key d'.starts = runsFor key d'.ends ++ d'.servingFor key :=
    h'.inOrder.starts key
  have hqueue₀ : runsFor key d.launches = runsFor key d.ends ++ d.queueFor key :=
    h.inOrder.launches key
  have hserving₀ : runsFor key d.starts = runsFor key d.ends ++ d.servingFor key :=
    h.inOrder.starts key
  rw [hlaunches, hends, runsFor_append, runsFor_append, hqueue₀, List.append_assoc,
    List.append_assoc] at hqueue
  rw [hstarts, hends, runsFor_append, runsFor_append, hserving₀, List.append_assoc,
    List.append_assoc] at hserving
  exact ⟨List.append_cancel_left hqueue, List.append_cancel_left hserving⟩

theorem Sound.queue_of_log_eq (h : d.Sound) (h' : d'.Sound) (hlog : d'.log = d.log) (key : String) :
    d'.queueFor key = d.queueFor key ∧ d'.servingFor key = d.servingFor key := by
  obtain ⟨hqueue, hserving⟩ := h.queue_of_log h' (hlog.trans (List.append_nil _).symm) key
  rw [List.filterMap_nil, List.filterMap_nil, runsFor, List.filter_nil, List.append_nil,
    List.nil_append]
    at hqueue hserving
  exact ⟨hqueue.symm, hserving.symm⟩

theorem Sound.queue_of_launched (h : d.Sound) (h' : d'.Sound)
    (hlog : d'.log = d.log ++ [(d.now, .launched run)]) (key : String) :
    d'.queueFor key = d.queueFor key ++ (if run.key = key then [run] else []) ∧
      d'.servingFor key = d.servingFor key := by
  obtain ⟨hqueue, hserving⟩ := h.queue_of_log h' hlog key
  simp only [List.filterMap_cons, List.filterMap_nil, Mark.launch?, Mark.start?, Mark.end?]
    at hqueue hserving
  rw [runsFor_singleton, runsFor, List.filter_nil, List.nil_append] at hqueue
  rw [runsFor, List.filter_nil, List.append_nil, List.nil_append] at hserving
  exact ⟨hqueue.symm, hserving.symm⟩

/-- A run that starts is the first in the queue, and no other run for its key has started. -/
theorem Sound.queue_of_started (h : d.Sound) (h' : d'.Sound)
    (hlog : d'.log = d.log ++ [(d.now, .started run)]) (key : String) :
    d'.queueFor key = d.queueFor key ∧
      (run.key ≠ key → d'.servingFor key = d.servingFor key) ∧
      (run.key = key → d.servingFor key = [] ∧ d'.servingFor key = [run] ∧
        ∃ later, d.queueFor key = run :: later) := by
  obtain ⟨hqueue, hserving⟩ := h.queue_of_log h' hlog key
  simp only [List.filterMap_cons, List.filterMap_nil, Mark.launch?, Mark.start?, Mark.end?]
    at hqueue hserving
  rw [runsFor, List.filter_nil, List.append_nil, List.nil_append] at hqueue
  rw [runsFor_singleton, runsFor, List.filter_nil, List.nil_append] at hserving
  refine ⟨hqueue.symm, fun hkey ↦ ?_, fun hkey ↦ ?_⟩
  · rw [if_neg hkey, List.append_nil] at hserving
    exact hserving.symm
  · obtain ⟨hone, hfront⟩ := h'.gated.servingFor key
    rw [if_pos hkey] at hserving
    rw [← hserving, List.length_append, List.length_singleton] at hone
    have hnone : d.servingFor key = [] := List.length_eq_zero_iff.mp (by omega)
    rw [hnone, List.nil_append] at hserving
    rw [← hserving, ← hqueue] at hfront
    obtain ⟨later, hlater⟩ := hfront
    exact ⟨hnone, hserving.symm, later, hlater.symm⟩

/-- A run that ends was the first in the queue, and nobody is served next to it. -/
theorem Sound.queue_of_ended (h : d.Sound) (h' : d'.Sound) {ending : Ending ρ}
    (hlog : d'.log = d.log ++ [(d.now, .ended run ending)]) (key : String) :
    (run.key ≠ key → d'.queueFor key = d.queueFor key ∧ d'.servingFor key = d.servingFor key) ∧
      (run.key = key →
        d.queueFor key = run :: d'.queueFor key ∧ d.servingFor key = [run] ∧
        d'.servingFor key = []) := by
  obtain ⟨hqueue, hserving⟩ := h.queue_of_log h' hlog key
  simp only [List.filterMap_cons, List.filterMap_nil, Mark.launch?, Mark.start?, Mark.end?]
    at hqueue hserving
  rw [runsFor_singleton, runsFor, List.filter_nil, List.append_nil] at hqueue hserving
  refine ⟨fun hkey ↦ ?_, fun hkey ↦ ?_⟩
  · rw [if_neg hkey, List.nil_append] at hqueue hserving
    exact ⟨hqueue.symm, hserving.symm⟩
  · rw [if_pos hkey] at hqueue hserving
    have hone := (h.gated.servingFor key).1
    rw [hserving, List.length_append, List.length_singleton] at hone
    have hnone : d'.servingFor key = [] := List.length_eq_zero_iff.mp (by omega)
    rw [hnone, List.append_nil] at hserving
    exact ⟨hqueue, hserving, hnone⟩

end Dispatcher

/-! ## Names and tasks -/

/-- What requests are called. -/
def namesOf (labels : List ι) (numbers : List Nat) : List ι := numbers.filterMap (labels[·]?)

theorem namesOf_append {labels : List ι} {numbers : List Nat} (h : ∀ n ∈ numbers, n < labels.length)
    (more : List ι) :
    namesOf (labels ++ more) numbers = namesOf labels numbers :=
  List.filterMap_congr fun n hn ↦ List.getElem?_append_left (h n hn)

/-- The tasks are suitable, and requests are called by their keys. -/
structure Keyed (forecast : Forecast σ ρ ι ν) (d : Dispatcher (Task σ ρ ι) ρ) (labels : List ι) :
    Prop where
  waiters : ∀ key numbers, d.waiters.lookup key = some numbers → ∀ label ∈ namesOf labels numbers,
    forecast.keyOf label = key
  waits : ∀ w ∈ d.waits, w.task.Suits forecast.keyOf forecast.view forecast.key w.key
  runs : ∀ run ∈ d.inProgress, run.task.Suits forecast.keyOf forecast.view forecast.key run.key
  answers : ∀ run ∈ d.inProgress, ∀ label ∈ namesOf labels run.answers,
    forecast.keyOf label = run.key

section Keyed

variable {forecast : Forecast σ ρ ι ν} {d d' : Dispatcher (Task σ ρ ι) ρ} {labels : List ι}

theorem Keyed.of_subset (h : Keyed forecast d labels)
    (hwaiters : ∀ key numbers, d'.waiters.lookup key = some numbers →
      d.waiters.lookup key = some numbers)
    (hwaits : d'.waits ⊆ d.waits) (hruns : d'.inProgress ⊆ d.inProgress) :
    Keyed forecast d' labels :=
  ⟨fun key numbers hlookup ↦ h.waiters key numbers (hwaiters key numbers hlookup),
    fun w hw ↦ h.waits w (hwaits hw), fun run hrun ↦ h.runs run (hruns hrun),
    fun run hrun ↦ h.answers run (hruns hrun)⟩

theorem Keyed.of_lookup (h : Keyed forecast d labels) {key : String} {label : ι}
    (hlabel : label ∈ namesOf labels ((d.waiters.lookup key).getD [])) :
    forecast.keyOf label = key := by
  cases hlookup : d.waiters.lookup key with
  | none =>
    rw [hlookup] at hlabel
    cases hlabel
  | some numbers =>
    rw [hlookup] at hlabel
    exact h.waiters key numbers hlookup label hlabel

/-- A run is launched with the task and the requests that have waited. -/
theorem Keyed.launch (h : Keyed forecast d labels) (hwaiting : d.Waiting) {w : Wait (Task σ ρ ι)}
    (hw : w ∈ d.waits) {numbers : List Nat} (hlookup : d.waiters.lookup w.key = some numbers)
    (hwaiters : d'.waiters = Ordered.erase w.key d.waiters) (hwaits : d'.waits ⊆ d.waits)
    (hlaunched : d'.launched = d.launched ++ [⟨w.number, w.key, w.task, numbers⟩])
    (hvisits : d'.visits = d.visits) :
    Keyed forecast d' labels := by
  have hruns : ∀ run ∈ d'.inProgress, run ∈ d.inProgress ∨
      run = ⟨w.number, w.key, w.task, numbers⟩ := by
    intro run hrun
    rw [Dispatcher.inProgress, hlaunched, hvisits, List.append_assoc, List.mem_append,
      List.mem_append, List.mem_singleton] at hrun
    rw [Dispatcher.inProgress, List.mem_append]
    tauto
  refine ⟨fun key others hothers ↦ ?_, fun v hv ↦ h.waits v (hwaits hv), fun run hrun ↦ ?_,
    fun run hrun ↦ ?_⟩
  · exact h.waiters key others (Dispatcher.lookup_erase_waiters hwaiting (hwaiters ▸ hothers))
  · obtain hold | rfl := hruns run hrun
    · exact h.runs run hold
    · exact h.waits w hw
  · obtain hold | rfl := hruns run hrun
    · exact h.answers run hold
    · exact h.waiters w.key numbers hlookup

/-- A request is made. -/
theorem Keyed.request (h : Keyed forecast d labels) (hsound : d.Sound)
    (hlabels : labels.length = d.made) {key : String} {task : Task σ ρ ι}
    (hsuits : task.Suits forecast.keyOf forecast.view forecast.key key) :
    Keyed forecast (d.request key task) (labels ++ [task.label]) := by
  have hnames : ∀ numbers : List Nat, (∀ n ∈ numbers, n < d.made) →
      namesOf (labels ++ [task.label]) numbers = namesOf labels numbers :=
    fun numbers hlt ↦ namesOf_append (hlabels ▸ hlt) _
  have hruns := Dispatcher.sameRuns_request hsound.waiting key task
  have hinProgress : (d.request key task).inProgress = d.inProgress := by
    rw [Dispatcher.inProgress, hruns.launched, hruns.visits, Dispatcher.inProgress]
  refine ⟨fun other numbers hlookup ↦ ?_, fun w hw ↦ ?_, fun run hrun ↦ ?_, fun run hrun ↦ ?_⟩
  · obtain hold | ⟨⟨_, heq⟩, rfl⟩ :=
      Dispatcher.waiters_move hsound.waiting (.request key task) hlookup
    · rw [hnames numbers (hsound.accounts.lt_of_mem_waiters hold)]
      exact h.waiters other numbers hold
    · obtain ⟨rfl, -⟩ := Move.request.inj heq
      intro label hlabel
      rw [namesOf, List.filterMap_append, List.mem_append, ← namesOf, ← namesOf] at hlabel
      rcases hlabel with hold | hnew
      · cases hearlier : d.waiters.lookup key with
        | none =>
          rw [hearlier] at hold
          cases hold
        | some earlier =>
          rw [hearlier, Option.getD_some,
            hnames earlier (hsound.accounts.lt_of_mem_waiters hearlier)] at hold
          exact h.waiters key earlier hearlier label hold
      · rw [namesOf, List.filterMap_cons, ← hlabels, List.getElem?_concat_length] at hnew
        rw [List.mem_singleton.mp hnew]
        exact hsuits.label
  · obtain ⟨hold, -⟩ | ⟨_, _, heq, rfl⟩ :=
      (Dispatcher.mem_waits_move hsound.waiting (.request key task) w).mp hw
    · exact h.waits w hold
    · obtain ⟨rfl, rfl⟩ := Move.request.inj heq
      exact hsuits
  · exact h.runs run (hinProgress ▸ hrun)
  · rw [hinProgress] at hrun
    rw [hnames run.answers (hsound.accounts.lt_of_mem_answers hrun)]
    exact h.answers run hrun

end Keyed

/-! ## What waits for a key -/

section Pending

variable {d d' : Dispatcher (Task σ ρ ι) ρ} {labels : List ι} {key : String}

def pendingFor (d : Dispatcher (Task σ ρ ι) ρ) (labels : List ι) (key : String) :
    Option (Job σ ρ ι) :=
  (d.waits.find? (·.key == key)).map fun w ↦
  ⟨w.due, w.task, namesOf labels ((d.waiters.lookup key).getD [])⟩

theorem pendingFor_cases (h : d.Waiting) (labels : List ι) (key : String) :
    ((∀ w ∈ d.waits, w.key ≠ key) ∧ d.waiters.lookup key = none ∧ pendingFor d labels key = none) ∨
      ∃ w numbers, w ∈ d.waits ∧ w.key = key ∧ d.waiters.lookup key = some numbers ∧
        pendingFor d labels key = some ⟨w.due, w.task, namesOf labels numbers⟩ := by
  cases hfind : d.waits.find? (·.key == key) with
  | none =>
    have hnone : ∀ w ∈ d.waits, w.key ≠ key :=
      fun w hw ↦ by simpa using List.find?_eq_none.mp hfind w hw
    refine .inl ⟨hnone, ?_, by rw [pendingFor, hfind, Option.map_none]⟩
    rw [← Option.not_isSome_iff_eq_none, Ordered.isSome_lookup_iff, h.mem_iff]
    rintro hmem
    obtain ⟨w, hw, hkey⟩ := List.mem_map.mp hmem
    exact hnone w hw hkey
  | some w =>
    have hw := List.mem_of_find?_eq_some hfind
    obtain rfl : w.key = key := by simpa using List.find?_some hfind
    obtain ⟨earlier, hlookup⟩ := h.last w hw
    exact .inr ⟨w, _, hw, rfl, hlookup, by
      rw [pendingFor, hfind, hlookup, Option.map_some, Option.getD_some]⟩

theorem pendingFor_of_mem (h : d.Waiting) {w : Wait (Task σ ρ ι)} (hw : w ∈ d.waits)
    {numbers : List Nat} (hlookup : d.waiters.lookup w.key = some numbers) (labels : List ι) :
    pendingFor d labels w.key = some ⟨w.due, w.task, namesOf labels numbers⟩ := by
  obtain ⟨hnone, -⟩ | ⟨v, others, hv, hkey, hothers, heq⟩ := pendingFor_cases h labels w.key
  · exact absurd rfl (hnone w hw)
  · obtain rfl := List.inj_on_of_nodup_map h.keys hv hw hkey
    obtain rfl := Option.some.inj (hlookup.symm.trans hothers)
    exact heq

theorem pendingFor_eq_none (h : ∀ w ∈ d.waits, w.key ≠ key) (labels : List ι) :
    pendingFor d labels key = none := by
  have hnone : d.waits.find? (·.key == key) = none := List.find?_eq_none.mpr fun w hw ↦ by
    simpa using h w hw
  rw [pendingFor, hnone, Option.map_none]

theorem pendingFor_congr (hwaits : d'.waits = d.waits) (hwaiters : d'.waiters = d.waiters)
    (labels : List ι) (key : String) : pendingFor d' labels key = pendingFor d labels key := by
  rw [pendingFor, hwaits, hwaiters, pendingFor]

/-- What is done to the waits for another key is not seen. -/
theorem pendingFor_of_ne {other : String} {more : List (Wait (Task σ ρ ι))} (hother : other ≠ key)
    (hwaits : d'.waits = d.othersThan other ++ more) (hmore : ∀ w ∈ more, w.key = other)
    (hwaiters : d'.waiters.lookup key = d.waiters.lookup key) (labels : List ι) :
    pendingFor d' labels key = pendingFor d labels key := by
  have hnone : more.find? (·.key == key) = none :=
    List.find?_eq_none.mpr fun w hw ↦ by simpa [hmore w hw] using hother
  have hfind : (d.othersThan other).find? (·.key == key) = d.waits.find? (·.key == key) := by
    rw [Dispatcher.othersThan, List.find?_filter]
    congr 1
    funext w
    by_cases hkey : w.key = key
    · simpa [hkey] using fun he : key = other ↦ hother he.symm
    · simp [hkey]
  rw [pendingFor, hwaits, List.find?_append, hnone, hfind, Option.or_none, hwaiters, pendingFor]

theorem le_of_pendingFor (h : d.Waiting) {job : Job σ ρ ι}
    (hjob : pendingFor d labels key = some job) :
    d.now ≤ job.launch := by
  obtain ⟨-, -, hnone⟩ | ⟨w, _, hw, -, -, heq⟩ := pendingFor_cases h labels key
  · rw [hnone] at hjob
    cases hjob
  · obtain rfl := Option.some.inj (heq.symm.trans hjob)
    exact h.due w hw

theorem labels_pendingFor (h : d.Waiting) (labels : List ι) (key : String) :
    (pendingFor d labels key).elim [] Job.labels
      = namesOf labels ((d.waiters.lookup key).getD []) := by
  obtain ⟨-, hlookup, hnone⟩ | ⟨w, numbers, -, -, hlookup, heq⟩ := pendingFor_cases h labels key
  · rw [hnone, hlookup]
    rfl
  · rw [heq, hlookup]
    rfl

theorem isSome_pendingFor (h : d.Waiting) (labels : List ι) (key : String) :
    (pendingFor d labels key).isSome = d.isPending key := by
  rw [Dispatcher.isPending, Bool.eq_iff_iff, Dispatcher.isSome_handles_iff h]
  obtain ⟨-, hlookup, hnone⟩ | ⟨w, numbers, -, -, hlookup, heq⟩ := pendingFor_cases h labels key
  · rw [hnone, hlookup]
    rfl
  · rw [heq, hlookup]
    rfl

theorem pendingFor_append (h : d.Sound) (hlabels : labels.length = d.made) (more : List ι)
    (key : String) :
    pendingFor d (labels ++ more) key = pendingFor d labels key := by
  rw [pendingFor, pendingFor]
  cases hnumbers : d.waiters.lookup key with
  | none => rfl
  | some numbers => rw [Option.getD_some,
      namesOf_append (hlabels ▸ h.accounts.lt_of_mem_waiters hnumbers)]

/-- A request for a key waits, together with those that have waited for it. -/
theorem pendingFor_request (h : d.Sound) (hlabels : labels.length = d.made) (key : String)
    (task : Task σ ρ ι) :
    pendingFor (d.request key task) (labels ++ [task.label]) key
      = some ⟨d.now + d.delay, task, (pendingFor d labels key).elim [] Job.labels ++
        [task.label]⟩ := by
  have hwaiting : (d.request key task).Waiting := h.waiting.move (.request key task)
  have heq := Dispatcher.request_eq h.waiting key task
  have hw : (⟨d.made, key, task, d.now + d.delay⟩ : Wait (Task σ ρ ι))
      ∈ (d.request key task).waits := by
    rw [heq]
    exact List.mem_append_right _ List.mem_cons_self
  have hlookup : (d.request key task).waiters.lookup key
      = some ((d.waiters.lookup key).getD [] ++ [d.made]) := by
    rw [heq, Ordered.push, Ordered.lookup_put_self]
  have hlt : ∀ n ∈ (d.waiters.lookup key).getD [], n < labels.length := by
    intro n hn
    cases hnumbers : d.waiters.lookup key with
    | none =>
      rw [hnumbers] at hn
      cases hn
    | some numbers =>
      rw [hnumbers] at hn
      exact hlabels ▸ h.accounts.lt_of_mem_waiters hnumbers n hn
  have hpending := pendingFor_of_mem hwaiting hw hlookup (labels ++ [task.label])
  rw [hpending, labels_pendingFor h.waiting]
  have hnames : namesOf (labels ++ [task.label]) ((d.waiters.lookup key).getD [] ++ [d.made])
      = namesOf labels ((d.waiters.lookup key).getD []) ++ [task.label] := by
    rw [namesOf, List.filterMap_append, ← namesOf, namesOf_append hlt, ← hlabels,
      List.filterMap_cons, List.getElem?_concat_length, List.filterMap_nil]
  rw [hnames]

theorem pendingFor_request_of_ne (h : d.Sound) (hlabels : labels.length = d.made) {other : String}
    (hother : other ≠ key) (task : Task σ ρ ι) :
    pendingFor (d.request other task) (labels ++ [task.label]) key = pendingFor d labels key := by
  have heq := Dispatcher.request_eq h.waiting other task
  rw [← pendingFor_append h hlabels [task.label] key]
  refine pendingFor_of_ne hother (congrArg Dispatcher.waits heq) (by simp) ?_ _
  rw [heq, Ordered.push, Ordered.lookup_put_of_ne hother.symm]

end Pending

/-! ## What shows of a key -/

namespace Clock

/-- When the tasks end that have started for a key. -/
def endsFor (key : String) (owed : List (Run (Task σ ρ ι) × Nat))
    (schedule : List (Nat × Action σ ρ ι)) :
    Multiset Nat :=
  ((owed ++ endings schedule).filter (·.1.key == key)).map Prod.snd

/-- What shows of the key of a forecast. -/
def sight (forecast : Forecast σ ρ ι ν) (owed : List (Run (Task σ ρ ι) × Nat))
    (clock : Clock σ ρ ι) :
    Sight σ ρ ι ν where
  time := clock.now.time
  state := forecast.view clock.state
  outlook := ⟨clock.dispatcher.delay, pendingFor clock.dispatcher clock.labels forecast.key⟩
  queue := (clock.dispatcher.queueFor forecast.key).map fun run ↦
    (run.task, namesOf clock.labels run.answers)
  isServing := !(clock.dispatcher.servingFor forecast.key).isEmpty
  ends := endsFor forecast.key owed clock.schedule
  atOnce := atOnce forecast.keyOf forecast.key clock.log
  ofRuns := ofRuns forecast.keyOf forecast.key clock.log

variable {forecast : Forecast σ ρ ι ν} {clock clock' : Clock σ ρ ι} {run : Run (Task σ ρ ι)}
    {n time : Nat}
  {owed owed' : List (Run (Task σ ρ ι) × Nat)} {rest : List (Moment × Event σ ρ ι)}

theorem endsFor_perm {key : String} {schedule schedule' : List (Nat × Action σ ρ ι)}
    (h : (owed' ++ endings schedule').Perm (owed ++ endings schedule)) :
    endsFor key owed' schedule' = endsFor key owed schedule :=
  Multiset.coe_eq_coe.mpr ((h.filter _).map _)

theorem endsFor_cons (key : String) (run : Run (Task σ ρ ι)) (time : Nat)
    (owed : List (Run (Task σ ρ ι) × Nat))
    (schedule : List (Nat × Action σ ρ ι)) :
    endsFor key ((run, time) :: owed) schedule
      = if run.key = key then time ::ₘ endsFor key owed schedule
        else endsFor key owed schedule := by
  by_cases hkey : run.key = key
  · rw [if_pos hkey, endsFor, List.cons_append, List.filter_cons_of_pos (by simpa using hkey)]
    rfl
  · rw [if_neg hkey, endsFor, List.cons_append, List.filter_cons_of_neg (by simpa using hkey)]
    rfl

theorem endsFor_append {key : String} {more : List (Nat × Action σ ρ ι)}
    (h : ∀ e ∈ more, e.2.resume? = none) (schedule : List (Nat × Action σ ρ ι)) :
    endsFor key owed (more ++ schedule) = endsFor key owed schedule := by
  rw [endsFor, endings_append h, endsFor]

theorem sight_pass (h : Passing clock clock') :
    clock'.sight forecast [] = { clock.sight forecast [] with time := clock'.now.time } := by
  have hends : endsFor forecast.key [] clock'.schedule = endsFor forecast.key [] clock.schedule :=
    endsFor_perm h.endings
  simp only [sight, h.state, h.labels, h.log, hends]
  rw [h.dispatcher]
  rfl

/-- Whoever waits in line is served as soon as nothing else is to be done. -/
theorem Going.queue_eq_nil (h : Going n rest [] clock) (hready : clock.ready = []) {key : String}
    (hserving : clock.dispatcher.servingFor key = []) : clock.dispatcher.queueFor key = [] := by
  have hcalls := h.attends.toCalls
  rw [hready] at hcalls
  have hlaunched : clock.dispatcher.launched = [] :=
    List.length_eq_zero_iff.mp (Nat.le_zero.mp hcalls.enters)
  have hline : clock.dispatcher.line key = [] := by
    by_contra hne
    obtain ⟨gate, hgate⟩ :=
      Option.isSome_iff_exists.mp ((h.attends.sound.gated.isSome_gateOf_iff key).mpr hne)
    have hpasses := (h.attends.sound.gated.line key gate hgate).2.2
    have hwakes := hcalls.wakes gate
    generalize clock.dispatcher.gateAt gate = held at hpasses hwakes
    generalize hvisits : clock.dispatcher.line key = line at hpasses hne
    cases hpasses with
    | held hfirst =>
      rw [Dispatcher.servingFor, hvisits, List.filter_cons_of_pos hfirst] at hserving
      cases hserving
    | free => cases hwakes rfl (by simpa using hne)
  rw [Dispatcher.queueFor, hline, hlaunched]
  rfl

theorem Starts.log {d : Dispatcher (Task σ ρ ι) ρ} {action : Action σ ρ ι} {m : Move (Task σ ρ ι) ρ}
    (h : Starts d run action m) : (d.move m).log = d.log ++ [(d.now, .started run)] ∧
    (d.move m).delay = d.delay := by
  cases h with
  | enter _ _ heq =>
    rw [heq]
    exact ⟨rfl, rfl⟩
  | wake _ _ _ heq =>
    rw [heq]
    exact ⟨rfl, rfl⟩

section Doing

variable {action : Action σ ρ ι} {ready : List (Action σ ρ ι)} {m : Move (Task σ ρ ι) ρ}

theorem sight_ready (hready : clock.ready = action :: ready) (hresume : action.resume? = none) :
    { clock with ready }.sight forecast owed = clock.sight forecast owed := by
  have hends : endsFor forecast.key owed clock.schedule
      = endsFor forecast.key owed { clock with ready }.schedule := by
    have hnone : ∀ e ∈ [(clock.now.time, action)], e.2.resume? = none := by simpa using hresume
    rw [schedule_of_ready hready]
    exact endsFor_append hnone { clock with ready }.schedule
  simp only [sight, hends]

theorem endsFor_soon (clock : Clock σ ρ ι) (owed : List (Run (Task σ ρ ι) × Nat)) (key : String)
    {actions : List (Action σ ρ ι)} (h : ∀ action ∈ actions, action.resume? = none) :
    endsFor key owed { clock with ready := clock.ready ++ actions }.schedule
      = endsFor key owed clock.schedule := by
  rw [endsFor_perm ((perm_endings (perm_schedule_soon clock actions)).append_left owed)]
  exact endsFor_append (List.forall_mem_map.mpr h) clock.schedule

/-- A wait ends. -/
theorem sight_launch (h : Going n rest owed clock) {w : Wait (Task σ ρ ι)} {numbers : List Nat}
    (hready : clock.ready = .endWait w.number :: ready) (hw : w ∈ clock.dispatcher.waits)
    (hlookup : clock.dispatcher.waiters.lookup w.key = some numbers)
    (heq : clock.dispatcher.move (.endWait w.number) =
      { clock.dispatcher with
        handles := (clock.dispatcher.othersThan w.key).map Dispatcher.handleOf
        waits := clock.dispatcher.othersThan w.key
        waiters := Ordered.erase w.key clock.dispatcher.waiters
        launched := clock.dispatcher.launched ++ [⟨w.number, w.key, w.task, numbers⟩]
        log := clock.dispatcher.log ++
        [(clock.dispatcher.now, .launched ⟨w.number, w.key, w.task, numbers⟩)] }) :
    (w.key ≠ forecast.key →
      { clock with
        dispatcher := clock.dispatcher.move (.endWait w.number)
        ready := ready ++ [Action.enter] }.sight forecast owed = clock.sight forecast owed) ∧
      (w.key = forecast.key →
        (clock.sight forecast owed).outlook.pending
        = some ⟨w.due, w.task, namesOf clock.labels numbers⟩ ∧
        { clock with
          dispatcher := clock.dispatcher.move (.endWait w.number)
          ready := ready ++ [Action.enter] }.sight forecast owed =
            { clock.sight forecast owed with
              outlook := { (clock.sight forecast owed).outlook with pending := none }
              queue := (clock.sight forecast owed).queue ++
              [(w.task, namesOf clock.labels numbers)] }) := by
  have hsound := h.attends.sound
  have hsound' := hsound.move (.endWait w.number)
  have hlog : (clock.dispatcher.move (.endWait w.number)).log
      = clock.dispatcher.log ++
        [(clock.dispatcher.now, .launched ⟨w.number, w.key, w.task, numbers⟩)] := by rw [heq]
  obtain ⟨hqueue, hserving⟩ := hsound.queue_of_launched hsound' hlog forecast.key
  have hends : endsFor forecast.key owed
      { clock with
        dispatcher := clock.dispatcher.move (.endWait w.number),
        ready := ready ++ [Action.enter] }.schedule
        = endsFor forecast.key owed { clock with ready }.schedule :=
    endsFor_soon { clock with ready } owed forecast.key (by simp [Action.resume?])
  have hdelay : (clock.dispatcher.move (.endWait w.number)).delay = clock.dispatcher.delay := by
    rw [heq]
  rw [← sight_ready hready rfl]
  refine ⟨fun hkey ↦ ?_, fun hkey ↦ ⟨?_, ?_⟩⟩
  · have hpending : pendingFor (clock.dispatcher.move (.endWait w.number)) clock.labels forecast.key
        = pendingFor clock.dispatcher clock.labels forecast.key := by
      refine pendingFor_of_ne hkey (by rw [heq, List.append_nil]) (by simp) ?_ _
      rw [heq, Ordered.lookup_erase_of_ne (Ne.symm hkey)]
    rw [if_neg hkey, List.append_nil] at hqueue
    simp only [sight, hqueue, hserving, hends, hdelay, hpending]
  · have hpending := pendingFor_of_mem hsound.waiting hw hlookup clock.labels
    rw [hkey] at hpending
    exact hpending
  · have hpending : pendingFor (clock.dispatcher.move (.endWait w.number)) clock.labels forecast.key
        = none := by
      rw [heq]
      exact pendingFor_eq_none (fun v hv ↦ hkey ▸ (Dispatcher.mem_othersThan.mp hv).2) _
    rw [if_pos hkey] at hqueue
    simp only [sight, hqueue, hserving, hends, hdelay, hpending, List.map_append, List.map_cons,
      List.map_nil]

theorem sight_join (h : Going n rest owed clock) {launched : List (Run (Task σ ρ ι))}
    {users : List (String × Int)} {gates : List Gate} {visits : List (Visit (Task σ ρ ι))}
    (hready : clock.ready = .enter :: ready)
    (heq : clock.dispatcher.move .enter = { clock.dispatcher with launched, users, gates, visits })
      :
    { clock with dispatcher := clock.dispatcher.move .enter, ready }.sight forecast owed
      = clock.sight forecast owed := by
  have hlog : (clock.dispatcher.move .enter).log = clock.dispatcher.log := by rw [heq]
  obtain ⟨hqueue, hserving⟩ :=
    h.attends.sound.queue_of_log_eq (h.attends.sound.move .enter) hlog forecast.key
  have hpending : pendingFor (clock.dispatcher.move .enter) clock.labels forecast.key
      = pendingFor clock.dispatcher clock.labels forecast.key :=
        pendingFor_congr (by rw [heq]) (by rw [heq]) _ _
  have hdelay : (clock.dispatcher.move .enter).delay = clock.dispatcher.delay := by rw [heq]
  have hends : endsFor forecast.key owed
      { clock with dispatcher := clock.dispatcher.move .enter, ready }.schedule
      = endsFor forecast.key owed { clock with ready }.schedule := rfl
  rw [← sight_ready hready rfl]
  simp only [sight, hqueue, hserving, hpending, hdelay, hends]

/-- A run starts, and its end is owed. -/
theorem sight_begin (h : Going n rest [] clock) (hready : clock.ready = action :: ready)
    (hstarts : Starts clock.dispatcher run action m)
    (hlabel : forecast.keyOf run.task.label = run.key) (stop : Nat) :
    (run.key ≠ forecast.key →
      ({ clock with dispatcher := clock.dispatcher.move m, ready }.note
        (.started run.task.label)).sight forecast
          [(run, stop)] = clock.sight forecast []) ∧
      (run.key = forecast.key →
        (clock.sight forecast []).isServing = false ∧
        (∃ later, (clock.sight forecast []).queue = (run.task, namesOf clock.labels run.answers) ::
          later) ∧
        ({ clock with dispatcher := clock.dispatcher.move m, ready }.note
          (.started run.task.label)).sight forecast
            [(run, stop)] =
          { clock.sight forecast [] with
            isServing := true
            ends := stop ::ₘ (clock.sight forecast []).ends
            ofRuns := (clock.sight forecast []).ofRuns ++
            [(clock.now.time, .started run.task.label)] }) := by
  obtain ⟨hwaiting, -, hresume, -⟩ := hstarts.same
  obtain ⟨hlog, hdelay⟩ := hstarts.log
  obtain ⟨hqueue, hother, hown⟩ :=
    h.attends.sound.queue_of_started (h.attends.sound.move m) hlog forecast.key
  have hpending : pendingFor (clock.dispatcher.move m) clock.labels forecast.key
      = pendingFor clock.dispatcher clock.labels forecast.key :=
        pendingFor_congr hwaiting.waits hwaiting.waiters _ _
  have hends : endsFor forecast.key [(run, stop)]
      ({ clock with dispatcher := clock.dispatcher.move m, ready }.note
        (.started run.task.label)).schedule
        = if run.key = forecast.key
          then stop ::ₘ endsFor forecast.key [] { clock with ready }.schedule
          else endsFor forecast.key [] { clock with ready }.schedule :=
    endsFor_cons forecast.key run stop [] { clock with ready }.schedule
  have habout : ∀ e ∈ [(clock.now.time, (.started run.task.label : Entry ρ ι))],
      e.2.concerns forecast.keyOf forecast.key = (run.key == forecast.key) := by
      simp [Entry.concerns, hlabel]
  have hruns : ∀ e ∈ [(clock.now.time, (.started run.task.label : Entry ρ ι))], e.2.isOfRun
      = true := by
    simp [Entry.isOfRun]
  have hseen := seen_for clock.log habout hruns
  rw [← sight_ready hready hresume]
  refine ⟨fun hkey ↦ ?_, fun hkey ↦ ?_⟩
  · rw [if_neg hkey] at hends
    obtain ⟨hatOnce, hofRuns⟩ := hseen.1 hkey
    simp only [sight, hends]
    simp only [note, hqueue, hother hkey, hpending, hdelay, hatOnce, hofRuns]
  · obtain ⟨hidle, hserving, later, hlater⟩ := hown hkey
    rw [if_pos hkey] at hends
    obtain ⟨hatOnce, hofRuns⟩ := hseen.2 hkey
    refine ⟨?_, ⟨_, congrArg (List.map _) hlater⟩, ?_⟩
    · simp only [sight, hidle, List.isEmpty_nil, Bool.not_true]
    · simp only [sight, hends]
      simp only [note, hqueue, hserving, hpending, hdelay, hatOnce, hofRuns, List.isEmpty_cons,
        Bool.not_false, if_true, List.append_nil]

theorem news_of_settled {numbers : List Nat} {outcome : Settled ρ}
    (h : (clock.dispatcher.move m).settled = clock.dispatcher.settled ++ numbers.map (·, outcome)) :
    clock.news m = (namesOf clock.labels numbers).map fun label ↦
      (clock.now.time, .settled label outcome) := by
  rw [news, h, List.drop_left, List.filterMap_map, namesOf, List.map_filterMap]
  rfl

theorem news_finish (h : Going n rest ((run, time) :: owed) clock) (ending : Ending ρ) :
    clock.news (.finish run.number ending)
      = ending.entries (namesOf clock.labels run.answers) clock.now.time := by
  obtain ⟨gate, before, after, hfinished⟩ :=
    Dispatcher.exists_finished h.attends.sound h.mem_running ending
  have hall : run.answers.filter (!clock.dispatcher.isSettled ·) = run.answers := by
    refine List.filter_eq_self.mpr fun number hnumber ↦ ?_
    have hplace : number ∈ clock.dispatcher.places := List.mem_append_right _
      (List.mem_append_left _ (List.mem_flatMap.mpr ⟨run, hfinished.inProgress.1, hnumber⟩))
    simpa using h.attends.sound.accounts.not_isSettled h.attends.abandoned hplace
  have hsettled := hfinished.settled
  rw [hall] at hsettled
  cases ending with
  | returned result => exact news_of_settled hsettled
  | cancelled =>
    have hnobody : (clock.dispatcher.move (.finish run.number .cancelled)).settled
        = clock.dispatcher.settled ++ ([] : List Nat).map (·, Settled.cancelled) := hsettled
    exact news_of_settled hnobody

/-- What the end of a run writes down concerns its key only. -/
theorem seen_finish (h : Going n rest ((run, time) :: owed) clock)
    (hlabel : forecast.keyOf run.task.label = run.key)
    (hanswers : ∀ label ∈ namesOf clock.labels run.answers, forecast.keyOf label = run.key) :
    (run.key ≠ forecast.key →
      atOnce forecast.keyOf forecast.key (clock.finish run).log
          = atOnce forecast.keyOf forecast.key clock.log ∧
        ofRuns forecast.keyOf forecast.key (clock.finish run).log
          = ofRuns forecast.keyOf forecast.key clock.log) ∧
      (run.key = forecast.key →
        atOnce forecast.keyOf forecast.key (clock.finish run).log
            = atOnce forecast.keyOf forecast.key clock.log ∧
          ofRuns forecast.keyOf forecast.key (clock.finish run).log
            = ofRuns forecast.keyOf forecast.key clock.log
              ++ ((clock.now.time, .ended run.task.label)
                :: (run.task.act clock.state).2.entries
                  (namesOf clock.labels run.answers) clock.now.time)) := by
  have hlog : (clock.finish run).log
      = clock.log ++ ((clock.now.time, (.ended run.task.label : Entry ρ ι))
        :: (run.task.act clock.state).2.entries
          (namesOf clock.labels run.answers) clock.now.time) := by
    rw [finish_eq_sequel, news_finish h, List.append_assoc]
    rfl
  generalize hmore : (clock.now.time, (.ended run.task.label : Entry ρ ι)) :: _ = more at hlog ⊢
  have habout : ∀ e ∈ more,
      e.2.concerns forecast.keyOf forecast.key = (run.key == forecast.key) := by
    rw [← hmore]
    refine List.forall_mem_cons.mpr ⟨by simp [Entry.concerns, hlabel], ?_⟩
    exact Ending.forall_mem_entries
      (fun label hmem _ ↦ by simp [Entry.concerns, hanswers label hmem]) _
  have hruns : ∀ e ∈ more, e.2.isOfRun = true := by
    rw [← hmore]
    exact List.forall_mem_cons.mpr ⟨rfl, Ending.forall_mem_entries (fun _ _ _ ↦ rfl) _⟩
  rw [hlog]
  simpa only [if_true, List.append_nil] using seen_for clock.log habout hruns

/-- A run ends that was owed. -/
theorem sight_finish (h : Going n rest ((run, clock.now.time) :: owed) clock)
    (hlabel : forecast.keyOf run.task.label = run.key)
    (hanswers : ∀ label ∈ namesOf clock.labels run.answers, forecast.keyOf label = run.key)
    (hleaves : run.key ≠ forecast.key → forecast.view (run.task.act clock.state).1
      = forecast.view clock.state) :
    (run.key ≠ forecast.key →
      (clock.finish run).sight forecast owed = clock.sight forecast ((run, clock.now.time) :: owed))
        ∧
      (run.key = forecast.key →
        (clock.sight forecast ((run, clock.now.time) :: owed)).isServing = true ∧
        ∃ later ends,
          (clock.sight forecast ((run, clock.now.time) :: owed)).queue
              = (run.task, namesOf clock.labels run.answers) :: later ∧
          (clock.sight forecast ((run, clock.now.time) :: owed)).ends = clock.now.time ::ₘ ends ∧
          (clock.finish run).sight forecast owed =
            { clock.sight forecast ((run, clock.now.time) :: owed) with
              state := forecast.view (run.task.act clock.state).1
              queue := later
              isServing := false
              ends
              ofRuns := (clock.sight forecast ((run, clock.now.time) :: owed)).ofRuns
                ++ ((clock.now.time, .ended run.task.label)
                  :: (run.task.act clock.state).2.entries
                    (namesOf clock.labels run.answers) clock.now.time) }) := by
  obtain ⟨gate, before, after, hfinished⟩ :=
    Dispatcher.exists_finished h.attends.sound h.mem_running (run.task.act clock.state).2
  have hsound' : (clock.dispatcher.finish run.number (run.task.act clock.state).2).Sound :=
    h.attends.sound.move (.finish _ _)
  obtain ⟨hother, hown⟩ := h.attends.sound.queue_of_ended hsound' hfinished.log forecast.key
  have hpending : pendingFor (clock.dispatcher.finish run.number (run.task.act clock.state).2)
    clock.labels forecast.key
      = pendingFor clock.dispatcher clock.labels forecast.key :=
        pendingFor_congr hfinished.waits hfinished.waiters _ _
  have hends₀ := endsFor_cons forecast.key run clock.now.time owed clock.schedule
  have hends : endsFor forecast.key owed (clock.finish run).schedule
      = endsFor forecast.key owed clock.schedule := by
    rw [finish_eq_sequel]
    exact endsFor_soon clock owed forecast.key fun action haction ↦ (mem_sequel haction).2.1
  have hseen := seen_finish h hlabel hanswers
  refine ⟨fun hkey ↦ ?_, fun hkey ↦ ?_⟩
  · obtain ⟨hqueue, hserving⟩ := hother hkey
    rw [if_neg hkey] at hends₀
    obtain ⟨hatOnce, hofRuns⟩ := hseen.1 hkey
    simp only [sight, hends, hends₀, hatOnce, hofRuns]
    simp only [finish_eq_sequel, hqueue, hserving, hpending, hleaves hkey, hfinished.delay]
  · obtain ⟨hqueue, hserving, hserved⟩ := hown hkey
    rw [if_pos hkey] at hends₀
    obtain ⟨hatOnce, hofRuns⟩ := hseen.2 hkey
    refine ⟨?_, _, _, congrArg (List.map _) hqueue, hends₀, ?_⟩
    · simp only [sight, hserving, List.isEmpty_cons, Bool.not_false]
    · simp only [sight, hends, hatOnce, hofRuns]
      simp only [finish_eq_sequel, hserved, hpending, hfinished.delay, List.isEmpty_nil,
        Bool.not_true]

theorem sight_soon_resume (clock : Clock σ ρ ι) (run : Run (Task σ ρ ι))
    (owed : List (Run (Task σ ρ ι) × Nat)) :
    (clock.soon (.resume run)).sight forecast owed
      = clock.sight forecast ((run, clock.now.time) :: owed) := by
  have hends : endsFor forecast.key owed (clock.soon (.resume run)).schedule
      = endsFor forecast.key ((run, clock.now.time) :: owed) clock.schedule :=
    endsFor_perm (((perm_endings (perm_schedule_soon clock [.resume run])).append_left owed).trans
      List.perm_middle)
  simp only [sight, hends]
  rfl

theorem sight_plan_resume (clock : Clock σ ρ ι) (run : Run (Task σ ρ ι)) (duration : Nat)
    (owed : List (Run (Task σ ρ ι) × Nat)) :
    (clock.planAfter duration (.resume run)).sight forecast owed
      = clock.sight forecast ((run, clock.now.time + duration) :: owed) := by
  have hends : endsFor forecast.key owed (clock.planAfter duration (.resume run)).schedule
      = endsFor forecast.key ((run, clock.now.time + duration) :: owed) clock.schedule :=
    endsFor_perm (((perm_endings (perm_schedule_plan clock _ (.resume run) _)).append_left
      owed).trans List.perm_middle)
  simp only [sight, hends]
  rfl

theorem sight_resumed (forecast : Forecast σ ρ ι ν) (hready : clock.ready = .resume run :: ready) :
    { clock with ready }.sight forecast [(run, clock.now.time)] = clock.sight forecast [] := by
  have hends : endsFor forecast.key [(run, clock.now.time)] { clock with ready }.schedule
      = endsFor forecast.key [] clock.schedule := by
    rw [schedule_of_ready hready]
    rfl
  simp only [sight, hends]

end Doing

/-! ## Events -/

section Taking

variable {key : String}

theorem sight_request (forecast : Forecast σ ρ ι ν) (h : Going n rest [] clock) (key : String)
    (task : Task σ ρ ι) :
    (key ≠ forecast.key → (clock.take (.request key task)).sight forecast []
      = clock.sight forecast []) ∧
      (key = forecast.key → (clock.take (.request key task)).sight forecast [] =
        { clock.sight forecast [] with
          outlook := (clock.sight forecast []).outlook.after clock.now.time
            (.request key task) }) := by
  have hsound := h.attends.sound
  have hlabels := h.attends.labels
  have hruns := Dispatcher.sameRuns_request hsound.waiting key task
  obtain ⟨hqueue, hserving⟩ :=
    hsound.queue_of_log_eq (hsound.move (.request key task)) hruns.log forecast.key
  have hdelay : (clock.dispatcher.move (.request key task)).delay = clock.dispatcher.delay := by
    rw [Dispatcher.move, Dispatcher.request_eq hsound.waiting]
  have hends : endsFor forecast.key [] (clock.take (.request key task)).schedule
      = endsFor forecast.key [] clock.schedule := by
    rw [take_request hsound.waiting]
    have hperm := perm_schedule_plan clock
      ⟨clock.now.time + clock.dispatcher.delay, clock.now.tick + (clock.planned + 1)⟩
        (.endWait clock.dispatcher.made)
      (clock.planned + 1)
    refine endsFor_perm (.trans (perm_endings hperm) ?_)
    exact .refl _
  have hnames : (clock.dispatcher.queueFor forecast.key).map
        (fun run ↦ (run.task, namesOf (clock.labels ++ [task.label]) run.answers))
      = (clock.dispatcher.queueFor forecast.key).map fun run ↦
          (run.task, namesOf clock.labels run.answers) := by
    refine List.map_congr_left fun run hrun ↦ ?_
    rw [namesOf_append (hlabels ▸ hsound.accounts.lt_of_mem_answers
      (Dispatcher.mem_inProgress_of_mem_queueFor hrun))]
  rw [Dispatcher.move] at hqueue hserving hdelay
  refine ⟨fun hkey ↦ ?_, fun hkey ↦ ?_⟩
  · have hpending := pendingFor_request_of_ne hsound hlabels hkey task
    simp only [sight, hends]
    simp only [take_request hsound.waiting, Dispatcher.move, hqueue, hserving, hdelay,
      hnames, hpending]
  · have hpending := pendingFor_request hsound hlabels key task
    rw [h.attends.now] at hpending
    subst hkey
    simp only [sight, hends]
    simp only [take_request hsound.waiting, Dispatcher.move, hqueue, hserving, hdelay, hnames,
      hpending, Outlook.after]

theorem news_cancel (h : Going n rest [] clock) (key : String) :
    clock.news (.cancel key)
      = (namesOf clock.labels ((clock.dispatcher.waiters.lookup key).getD [])).map fun label ↦
        (clock.now.time, .settled label .cancelled) := by
  refine news_of_settled ?_
  have hwaiting := h.attends.sound.waiting
  have haccounts := h.attends.sound.accounts
  have hnumbers : ((clock.dispatcher.waiters.lookup key).getD []).Nodup ∧
      ∀ number ∈ (clock.dispatcher.waiters.lookup key).getD [], number
      ∈ clock.dispatcher.places := by
    cases hlookup : clock.dispatcher.waiters.lookup key with
    | none => exact ⟨.nil, by simp⟩
    | some numbers =>
      exact ⟨haccounts.nodup_waiters hlookup, fun number hnumber ↦ List.mem_append_left _
        (List.mem_flatMap.mpr ⟨(key, numbers), Ordered.mem_of_lookup hlookup, hnumber⟩)⟩
  have hall : ((clock.dispatcher.waiters.lookup key).getD []).filter (!clock.dispatcher.isSettled ·)
      = (clock.dispatcher.waiters.lookup key).getD [] := by
    refine List.filter_eq_self.mpr fun number hnumber ↦ ?_
    simpa using haccounts.not_isSettled h.attends.abandoned (hnumbers.2 number hnumber)
  rw [Dispatcher.move, Dispatcher.cancel_eq hwaiting.toHandled,
    Dispatcher.settled_settleAll _ hnumbers.1]
  exact congrArg (fun numbers ↦ clock.dispatcher.settled ++ numbers.map (·, Settled.cancelled)) hall

theorem exists_cancel_eq (hwaiting : clock.dispatcher.Waiting) (key : String) :
    ∃ settled, clock.dispatcher.move (.cancel key) =
      { clock.dispatcher with
        handles := (clock.dispatcher.othersThan key).map Dispatcher.handleOf
        waits := clock.dispatcher.othersThan key
        waiters := Ordered.erase key clock.dispatcher.waiters
        settled } := by
  rw [Dispatcher.move, Dispatcher.cancel_eq hwaiting.toHandled]
  exact Dispatcher.settleAll_eq _ _ _

theorem pendingFor_cancel (hwaiting : clock.dispatcher.Waiting) (key : String) (labels : List ι) :
    pendingFor (clock.dispatcher.move (.cancel key)) labels key = none := by
  obtain ⟨settled, hcancel⟩ := exists_cancel_eq hwaiting key
  rw [hcancel]
  exact pendingFor_eq_none (fun w hw ↦ (Dispatcher.mem_othersThan.mp hw).2) _

theorem pendingFor_cancel_of_ne (hwaiting : clock.dispatcher.Waiting) {other : String}
    (hne : key ≠ other) (labels : List ι) :
    pendingFor (clock.dispatcher.move (.cancel key)) labels other
      = pendingFor clock.dispatcher labels other := by
  obtain ⟨settled, hcancel⟩ := exists_cancel_eq hwaiting key
  refine pendingFor_of_ne hne (by rw [hcancel, List.append_nil]) (by simp) ?_ _
  rw [hcancel, Ordered.lookup_erase_of_ne (Ne.symm hne)]

theorem take_cancel (h : Going n rest [] clock) (key : String) :
    clock.take (.cancel key) =
      { clock with
        dispatcher := clock.dispatcher.move (.cancel key)
        log := clock.log
          ++ (namesOf clock.labels ((clock.dispatcher.waiters.lookup key).getD [])).map fun label ↦
            (clock.now.time, .settled label .cancelled) } := by
  rw [take, move_eq, news_cancel h]

theorem sight_cancel (h : Going n rest [] clock)
    (hkeyed : Keyed forecast clock.dispatcher clock.labels) (key : String) :
    (key ≠ forecast.key → (clock.take (.cancel key)).sight forecast [] = clock.sight forecast []) ∧
      (key = forecast.key → (clock.take (.cancel key)).sight forecast [] =
        { clock.sight forecast [] with
          outlook := (clock.sight forecast []).outlook.after clock.now.time (.cancel key)
          atOnce := (clock.sight forecast []).atOnce
            ++ (clock.sight forecast []).outlook.brings clock.now.time (.cancel key) }) := by
  have hsound := h.attends.sound
  have hruns := Dispatcher.sameRuns_cancel hsound.waiting.toHandled key
  obtain ⟨hqueue, hserving⟩ :=
    hsound.queue_of_log_eq (hsound.move (.cancel key)) hruns.log forecast.key
  have hdelay : (clock.dispatcher.move (.cancel key)).delay = clock.dispatcher.delay := by
    obtain ⟨settled, hcancel⟩ := exists_cancel_eq hsound.waiting key
    rw [hcancel]
  have hends : endsFor forecast.key [] (clock.take (.cancel key)).schedule
      = endsFor forecast.key [] clock.schedule := by
    rw [take_cancel h]
    rfl
  have habout : ∀ e ∈ (namesOf clock.labels ((clock.dispatcher.waiters.lookup key).getD [])).map
      (fun label ↦ (clock.now.time, (.settled label .cancelled : Entry ρ ι))),
      e.2.concerns forecast.keyOf forecast.key = (key == forecast.key) :=
    List.forall_mem_map.mpr fun label hlabel ↦ by rw [Entry.concerns, hkeyed.of_lookup hlabel]
  have hevents : ∀ e ∈ (namesOf clock.labels ((clock.dispatcher.waiters.lookup key).getD [])).map
      (fun label ↦ (clock.now.time, (.settled label .cancelled : Entry ρ ι))),
          e.2.isOfRun = false :=
    List.forall_mem_map.mpr fun _ _ ↦ rfl
  have hseen := seen_for clock.log habout hevents
  refine ⟨fun hkey ↦ ?_, fun hkey ↦ ?_⟩
  · have hpending := pendingFor_cancel_of_ne hsound.waiting hkey clock.labels
    obtain ⟨hatOnce, hofRuns⟩ := hseen.1 hkey
    simp only [sight, hends]
    simp only [take_cancel h, hqueue, hserving, hdelay, hpending, hatOnce, hofRuns]
  · subst hkey
    have hpending := pendingFor_cancel hsound.waiting forecast.key clock.labels
    have hlabels := labels_pendingFor hsound.waiting clock.labels forecast.key
    obtain ⟨hatOnce, hofRuns⟩ := hseen.2 rfl
    simp only [sight, hends]
    simp only [take_cancel h, hqueue, hserving, hdelay, hpending, hatOnce, hofRuns, Outlook.after,
      Outlook.brings, hlabels, Bool.false_eq_true, if_false, List.append_nil]

/-- **What shows of a key is changed by the events that concern it, and by no others.** -/
theorem sight_take (h : Going n rest [] clock)
    (hkeyed : Keyed forecast clock.dispatcher clock.labels) {event : Event σ ρ ι}
    (hcall : event.isCall = true) :
    (event.concerns forecast.key = false → (clock.take event).sight forecast []
      = clock.sight forecast []) ∧
      (event.concerns forecast.key = true → (clock.take event).sight forecast [] =
        { clock.sight forecast [] with
          outlook := (clock.sight forecast []).outlook.after clock.now.time event
          atOnce := (clock.sight forecast []).atOnce
            ++ (clock.sight forecast []).outlook.brings clock.now.time event }) := by
  cases event with
  | request key task =>
    obtain ⟨hother, hown⟩ := sight_request forecast h key task
    refine ⟨fun hfalse ↦ hother ?_, fun htrue ↦ ?_⟩
    · simpa [Event.concerns, Event.key?] using hfalse
    · rw [hown (by simpa [Event.concerns, Event.key?] using htrue)]
      simp only [Outlook.brings, List.append_nil]
  | cancel key =>
    obtain ⟨hother, hown⟩ := sight_cancel h hkeyed key
    refine ⟨fun hfalse ↦ hother ?_, fun htrue ↦ hown ?_⟩
    · simpa [Event.concerns, Event.key?] using hfalse
    · simpa [Event.concerns, Event.key?] using htrue
  | ask key =>
    have habout : ∀ e ∈ [(clock.now.time,
      (.answered key (clock.dispatcher.isPending key) : Entry ρ ι))],
        e.2.concerns forecast.keyOf forecast.key = (key == forecast.key) := by simp [Entry.concerns]
    have hevents : ∀ e ∈ [(clock.now.time,
      (.answered key (clock.dispatcher.isPending key) : Entry ρ ι))],
        e.2.isOfRun = false := by simp [Entry.isOfRun]
    have hseen := seen_for clock.log habout hevents
    have hends : endsFor forecast.key [] (clock.take (.ask key)).schedule
        = endsFor forecast.key [] clock.schedule := rfl
    refine ⟨fun hfalse ↦ ?_, fun htrue ↦ ?_⟩
    · obtain ⟨hatOnce, hofRuns⟩ := hseen.1 (by simpa [Event.concerns, Event.key?] using hfalse)
      simp only [sight, hends]
      simp only [take, note, hatOnce, hofRuns]
    · obtain rfl : key = forecast.key := by simpa [Event.concerns, Event.key?] using htrue
      obtain ⟨hatOnce, hofRuns⟩ := hseen.2 rfl
      have hpending := isSome_pendingFor h.attends.sound.waiting clock.labels forecast.key
      simp only [sight, hends]
      simp only [take, note, hatOnce, hofRuns, Outlook.after, Outlook.brings, hpending,
        Bool.false_eq_true, if_false, List.append_nil]
  | setDelay delay =>
    have htake : clock.take (.setDelay delay)
        = { clock with dispatcher := { clock.dispatcher with delay } } :=
      move_of_settled_eq rfl
    refine ⟨fun hfalse ↦ (by cases hfalse), fun _ ↦ ?_⟩
    simp only [htake, Outlook.brings, List.append_nil]
    rfl
  | _ => cases hcall

end Taking

end Clock

end MissionIndex.Schedule
