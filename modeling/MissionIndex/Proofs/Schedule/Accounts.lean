import Mathlib.Data.List.Perm.Basic
import MissionIndex.Proofs.Schedule.Waiting

/-!
# Where the requests of a dispatcher are

Every request waits, or is answered by one run in progress, or has been settled, or is left without
an answer for good: then the task of its run has been cancelled. `Accounts` says so by keeping the
numbers of the requests that have not been answered (`places`) apart from those that have been
settled. A request that its caller has given up is the exception: it has been settled, and stays
where it was until its run ends.

A move takes the numbers from one place to another (`Accounts.of_perm`), or settles the requests of
a key or of a run all together (`Accounts.settleAll`).
-/

namespace MissionIndex.Schedule

/-- The numbers of the requests that an end leaves without an answer. -/
def Mark.unanswered {τ ρ : Type} : Mark τ ρ → List Nat
  | .ended run .cancelled => run.answers
  | .launched _ | .started _ | .ended _ (.returned _) => []

namespace Dispatcher

variable {τ ρ : Type} {d d' : Dispatcher τ ρ}

def waitingNumbers (d : Dispatcher τ ρ) : List Nat := d.waiters.flatMap Prod.snd

def heldNumbers (d : Dispatcher τ ρ) : List Nat := d.inProgress.flatMap Run.answers

/-- The numbers of the requests whose run has come to its end without answering them. -/
def unanswered (d : Dispatcher τ ρ) : List Nat := d.log.flatMap (·.2.unanswered)

/-- The numbers of the requests that have not been answered. -/
def places (d : Dispatcher τ ρ) : List Nat := d.waitingNumbers ++ (d.heldNumbers ++ d.unanswered)

def settledNumbers (d : Dispatcher τ ρ) : List Nat := d.settled.map Prod.fst

/-- Every request is in one place, or has been settled once. -/
structure Accounts (d : Dispatcher τ ρ) : Prop where
  /-- The request that brought the task of a run is the last that the run answers. -/
  answers : ∀ run ∈ d.inProgress, ∃ earlier, run.answers = earlier ++ [run.number]
  nodup_places : d.places.Nodup
  nodup_settled : d.settledNumbers.Nodup
  lt_of_mem_places : ∀ n ∈ d.places, n < d.made
  lt_of_mem_settled : ∀ n ∈ d.settledNumbers, n < d.made
  apart : ∀ n ∈ d.places, n ∈ d.settledNumbers → n ∈ d.abandoned
  complete : ∀ n < d.made, n ∈ d.places ∨ n ∈ d.settledNumbers

theorem accounts_empty : ({} : Dispatcher τ ρ).Accounts :=
    ⟨nofun, .nil, .nil, nofun, nofun, nofun, nofun⟩

theorem unanswered_note (d : Dispatcher τ ρ) (mark : Mark τ ρ) :
    (d.note mark).unanswered = d.unanswered ++ mark.unanswered := by
  rw [unanswered, note, List.flatMap_append, List.flatMap_singleton, unanswered]

theorem isSettled_iff {n : Nat} : d.isSettled n = true ↔ n ∈ d.settledNumbers := by
  rw [isSettled, settledNumbers, List.any_eq_true, List.mem_map]
  simp only [beq_iff_eq]

/-- Where no request has been given up, those that have not been answered have not been settled. -/
theorem Accounts.not_isSettled (h : d.Accounts) (hnone : d.abandoned = []) {n : Nat}
    (hn : n ∈ d.places) :
    ¬ d.isSettled n = true := by
  rw [isSettled_iff]
  intro hmem
  have habandoned := h.apart n hn hmem
  rw [hnone] at habandoned
  cases habandoned

theorem Accounts.lt_of_mem_waiters (h : d.Accounts) {key : String} {numbers : List Nat}
    (hlookup : d.waiters.lookup key = some numbers) : ∀ n ∈ numbers, n < d.made := fun n hn ↦
  h.lt_of_mem_places n (List.mem_append_left _
    (List.mem_flatMap.mpr ⟨(key, numbers), Ordered.mem_of_lookup hlookup, hn⟩))

theorem Accounts.lt_of_mem_answers (h : d.Accounts) {run : Run τ} (hrun : run ∈ d.inProgress) :
    ∀ n ∈ run.answers, n < d.made := fun n hn ↦
  h.lt_of_mem_places n (List.mem_append_right _
    (List.mem_append_left _ (List.mem_flatMap.mpr ⟨run, hrun, hn⟩)))

theorem Accounts.nodup_waiting (h : d.Accounts) : d.waitingNumbers.Nodup :=
  h.nodup_places.of_append_left

theorem Accounts.nodup_held (h : d.Accounts) : d.heldNumbers.Nodup :=
  h.nodup_places.of_append_right.of_append_left

theorem Accounts.nodup_waiters (h : d.Accounts) {key : String} {numbers : List Nat}
    (hlookup : d.waiters.lookup key = some numbers) : numbers.Nodup :=
  (List.nodup_flatMap.mp h.nodup_waiting).1 _ (Ordered.mem_of_lookup hlookup)

theorem Accounts.nodup_answers (h : d.Accounts) {run : Run τ} (hrun : run ∈ d.inProgress) :
    run.answers.Nodup := (List.nodup_flatMap.mp h.nodup_held).1 run hrun

/-- Where requests only change places, the accounts stay right. -/
theorem Accounts.of_perm (h : d.Accounts)
    (hanswers : ∀ run ∈ d'.inProgress, ∃ earlier, run.answers = earlier ++ [run.number])
    (hplaces : d'.places.Perm d.places) (hmade : d'.made = d.made)
    (hsettled : d'.settled = d.settled) (habandoned : d'.abandoned = d.abandoned) :
    d'.Accounts := by
  have hnumbers : d'.settledNumbers = d.settledNumbers := congrArg (List.map Prod.fst) hsettled
  refine ⟨hanswers, hplaces.nodup_iff.mpr h.nodup_places, ?_, ?_, ?_, ?_, ?_⟩
  · rw [hnumbers]
    exact h.nodup_settled
  · intro n hn
    rw [hmade]
    exact h.lt_of_mem_places n (hplaces.subset hn)
  · rw [hnumbers, hmade]
    exact h.lt_of_mem_settled
  · intro n hn
    rw [hnumbers, habandoned]
    exact h.apart n (hplaces.subset hn)
  · intro n hn
    rw [hmade] at hn
    rw [hnumbers]
    exact (h.complete n hn).imp_left fun hmem ↦ hplaces.symm.subset hmem

theorem settledNumbers_settleAll (d : Dispatcher τ ρ) {numbers : List Nat} (h : numbers.Nodup)
    (outcome : Settled ρ) :
    (d.settleAll numbers outcome).settledNumbers = d.settledNumbers ++
      numbers.filter (!d.isSettled ·) := by
  rw [settledNumbers, settled_settleAll d h, List.map_append, List.map_map, settledNumbers]
  exact congrArg _ (List.map_id _)

/-- Requests that leave their place are settled. -/
theorem Accounts.settleAll (h : d.Accounts) {numbers : List Nat} (outcome : Settled ρ)
    (hanswers : ∀ run ∈ d'.inProgress, run ∈ d.inProgress)
    (hplaces : d.places.Perm (numbers ++ d'.places)) (hmade : d'.made = d.made)
    (hsettled : d'.settled = d.settled) (habandoned : d'.abandoned = d.abandoned) :
    (d'.settleAll numbers outcome).Accounts := by
  have hnodup := hplaces.nodup_iff.mp h.nodup_places
  have hold : d'.settledNumbers = d.settledNumbers := congrArg (List.map Prod.fst) hsettled
  have hnew := settledNumbers_settleAll d' hnodup.of_append_left outcome
  rw [hold] at hnew
  have hmem : ∀ n, n ∈ (d'.settleAll numbers outcome).settledNumbers ↔ n ∈ d.settledNumbers ∨
      n ∈ numbers := by
    intro n
    rw [hnew, List.mem_append, List.mem_filter, Bool.not_eq_true', ← Bool.not_eq_true,
      isSettled_iff, hold]
    tauto
  obtain ⟨settled, hsame⟩ := d'.settleAll_eq numbers outcome
  have hprogress : (d'.settleAll numbers outcome).inProgress = d'.inProgress := by rw [hsame]; rfl
  have hstay : (d'.settleAll numbers outcome).places = d'.places := by rw [hsame]; rfl
  have hmade' : (d'.settleAll numbers outcome).made = d.made := by rw [hsame]; exact hmade
  have habandoned' : (d'.settleAll numbers outcome).abandoned
    = d.abandoned := by rw [hsame]; exact habandoned
  refine ⟨?_, ?_, ?_, ?_, ?_, ?_, ?_⟩
  · intro run hrun
    exact h.answers run (hanswers run (hprogress ▸ hrun))
  · rw [hstay]
    exact hnodup.of_append_right
  · rw [hnew]
    refine h.nodup_settled.append (hnodup.of_append_left.filter _) fun n hn hn' ↦ ?_
    have hnot := (List.mem_filter.mp hn').2
    rw [Bool.not_eq_true', ← Bool.not_eq_true, isSettled_iff, hold] at hnot
    exact hnot hn
  · intro n hn
    rw [hmade']
    exact h.lt_of_mem_places n (hplaces.symm.subset (List.mem_append_right _ (hstay ▸ hn)))
  · intro n hn
    rw [hmade']
    rcases (hmem n).mp hn with hn | hn
    · exact h.lt_of_mem_settled n hn
    · exact h.lt_of_mem_places n (hplaces.symm.subset (List.mem_append_left _ hn))
  · intro n hn hn'
    rw [hstay] at hn
    rw [habandoned']
    rcases (hmem n).mp hn' with hn' | hn'
    · exact h.apart n (hplaces.symm.subset (List.mem_append_right _ hn)) hn'
    · exact absurd hn (List.disjoint_of_nodup_append hnodup hn')
  · intro n hn
    rw [hmade'] at hn
    rw [hstay, hmem]
    rcases h.complete n hn with hn | hn
    · rcases List.mem_append.mp (hplaces.subset hn) with hn | hn
      · exact .inr (.inr hn)
      · exact .inl hn
    · exact .inr (.inl hn)

/-! ## Runs in progress -/

theorem sublist_flatMap_answers {runs : List (Run τ)}
    (h : ∀ run ∈ runs, ∃ earlier, run.answers = earlier ++ [run.number]) :
    (runs.map Run.number).Sublist (runs.flatMap Run.answers) := by
  induction runs with
  | nil => exact .slnil
  | cons run rest ih =>
    obtain ⟨earlier, hearlier⟩ := h run List.mem_cons_self
    have hrun : [run.number].Sublist run.answers := hearlier ▸ List.sublist_append_right _ _
    exact hrun.append (ih fun r hr ↦ h r (List.mem_cons_of_mem run hr))

theorem Accounts.nodup_numbers (h : d.Accounts) : (d.inProgress.map Run.number).Nodup :=
  (sublist_flatMap_answers h.answers).nodup h.nodup_held

theorem Accounts.nodup_visits (h : d.Accounts) : (d.visits.map (·.run.number)).Nodup := by
  have hnodup := h.nodup_numbers
  rw [inProgress, List.map_append, List.map_map] at hnodup
  exact hnodup.of_append_right

theorem exists_gateOf_provideGate (d : Dispatcher τ ρ) (key : String) :
    ∃ number, (d.provideGate key).gateOf.lookup key = some number := by
  rw [provideGate]
  split
  · next number hnumber => exact ⟨number, hnumber⟩
  · exact ⟨d.gates.length, Ordered.lookup_put_self _ _ _⟩

/-- Two dispatchers have the same accounts of what is settled, and of what never will be. -/
structure SameSettled (d d' : Dispatcher τ ρ) : Prop where
  settled : d'.settled = d.settled
  abandoned : d'.abandoned = d.abandoned
  unanswered : d'.unanswered = d.unanswered

/-- A run that goes to its gate is in progress as before. -/
theorem inProgress_enter (d : Dispatcher τ ρ) :
    d.enter.inProgress.Perm d.inProgress ∧ SameSettled d d.enter := by
  rw [enter]
  cases hlaunched : d.launched with
  | nil => exact ⟨.refl _, rfl, rfl, rfl⟩
  | cons run launched =>
    simp only
    obtain ⟨number, hnumber⟩ := exists_gateOf_provideGate { d with launched } run.key
    have hprovided : ({ d with launched }.provideGate run.key).launched = launched ∧
        ({ d with launched }.provideGate run.key).visits = d.visits ∧
        SameSettled d ({ d with launched }.provideGate run.key) := by
      rw [provideGate]
      split <;> exact ⟨rfl, rfl, rfl, rfl, rfl⟩
    generalize { d with launched }.provideGate run.key = provided at hnumber hprovided
    obtain ⟨hrest, hvisits, hsettled, habandoned, hunanswered⟩ := hprovided
    have hgate : (provided.retain run.key).gateOf.lookup run.key = some number := hnumber
    rw [hgate]
    have hperm (isRunning : Bool) :
        (launched ++ (d.visits ++ [(⟨run, number, isRunning⟩ : Visit τ)]).map Visit.run).Perm
        d.inProgress := by
      rw [inProgress, hlaunched, List.map_append, ← List.append_assoc]
      exact List.perm_append_comm
    simp only [arrive]
    split
    · refine ⟨?_, hsettled, habandoned, hunanswered⟩
      simp only [inProgress, retain, hrest, hvisits]
      exact hperm false
    · refine ⟨?_, hsettled, habandoned, ?_⟩
      · simp only [inProgress, note, retain, hrest, hvisits]
        exact hperm true
      · exact (unanswered_note _ _).trans ((List.append_nil _).trans hunanswered)

theorem inProgress_wake (d : Dispatcher τ ρ) (number : Nat) :
    (d.wake number).inProgress = d.inProgress ∧ SameSettled d (d.wake number) := by
  rw [wake]
  simp only
  split
  · next first queue _ =>
    split
    · refine ⟨?_, rfl, rfl, (unanswered_note _ _).trans (List.append_nil _)⟩
      simp only [inProgress, note, List.map_map]
      refine congrArg _ (List.map_congr_left fun v _ ↦ ?_)
      simp only [Function.comp_apply]
      split <;> rfl
    · exact ⟨rfl, rfl, rfl, rfl⟩
  · exact ⟨rfl, rfl, rfl, rfl⟩

/-- If the end of a task does anything, the run holds its gate and leaves it, and what becomes of
the requests that it answers is up to how the task ends. -/
theorem finish_cases (h : d.Accounts) (number : Nat) (ending : Ending ρ) :
    d.finish number ending = d ∧
        (∀ v ∈ d.visits, v.run.number = number → v.isRunning = false) ∨
      ∃ before v after, d.visits = before ++ v :: after ∧ v.run.number = number ∧
        v.isRunning = true ∧
        d.finish number ending =
          answer
            (release
              (note
                { d with
                  gates := d.gates.set v.gate { d.gateAt v.gate with isHeld := false }
                  visits := before ++ after }
                (.ended v.run ending))
              v.run.key)
            v.run.answers ending := by
  rw [finish]
  cases hfind : d.visits.find? fun v ↦ v.run.number == number && v.isRunning with
  | none =>
    refine .inl ⟨rfl, fun v hv hnumber ↦ ?_⟩
    have hnone := List.find?_eq_none.mp hfind v hv
    simpa [hnumber] using hnone
  | some v =>
    have hv := List.mem_of_find?_eq_some hfind
    have hrunning := List.find?_some hfind
    rw [Bool.and_eq_true, beq_iff_eq] at hrunning
    obtain ⟨before, after, hvisits, hfilter⟩ := exists_split_of_mem h.nodup_visits hv
    refine .inr ⟨before, v, after, hvisits, hrunning.1, hrunning.2, ?_⟩
    simp only
    rw [← hfilter, hrunning.1]

theorem release_eq (d : Dispatcher τ ρ) (key : String) :
    ∃ users gateOf, d.release key = { d with users, gateOf } := by
  rw [release]
  split
  · exact ⟨_, _, rfl⟩
  · exact ⟨_, d.gateOf, rfl⟩

/-! ## Moves -/

theorem places_perm (hwaiting : d'.waitingNumbers.Perm d.waitingNumbers)
    (hprogress : d'.inProgress.Perm d.inProgress) (hunanswered : d'.unanswered = d.unanswered) :
    d'.places.Perm d.places :=
  hwaiting.append ((hprogress.flatMap_right _).append (.of_eq hunanswered))

theorem Accounts.request (h : d.Accounts) (hwaiting : d.Waiting) (key : String) (task : τ) :
    (d.request key task).Accounts := by
  rw [request_eq hwaiting]
  have hplaces : ((Ordered.push key d.made d.waiters).flatMap Prod.snd
      ++ (d.heldNumbers ++ d.unanswered)).Perm (d.made :: d.places) :=
    (Ordered.flatMap_snd_push_perm key d.made d.waiters).append_right _
  refine ⟨h.answers, ?_, h.nodup_settled, ?_, ?_, ?_, ?_⟩
  · refine hplaces.nodup_iff.mpr (List.nodup_cons.mpr ⟨fun hn ↦ ?_, h.nodup_places⟩)
    exact Nat.lt_irrefl _ (h.lt_of_mem_places _ hn)
  · intro n hn
    rcases List.mem_cons.mp (hplaces.subset hn) with rfl | hn
    · exact Nat.lt_succ_self _
    · exact Nat.lt_succ_of_lt (h.lt_of_mem_places n hn)
  · exact fun n hn ↦ Nat.lt_succ_of_lt (h.lt_of_mem_settled n hn)
  · intro n hn hn'
    rcases List.mem_cons.mp (hplaces.subset hn) with rfl | hn
    · exact absurd (h.lt_of_mem_settled _ hn') (Nat.lt_irrefl _)
    · exact h.apart n hn hn'
  · intro n hn
    rcases Nat.lt_succ_iff_lt_or_eq.mp hn with hn | rfl
    · exact (h.complete n hn).imp_left fun hmem ↦ hplaces.symm.subset (List.mem_cons_of_mem _ hmem)
    · exact .inl (hplaces.symm.subset List.mem_cons_self)

theorem Accounts.cancel (h : d.Accounts) (hwaiting : d.Handled) (key : String) :
    (d.cancel key).Accounts := by
  rw [cancel_eq hwaiting]
  refine h.settleAll _ (fun _ hrun ↦ hrun) ?_ rfl rfl rfl
  have hperm := (Ordered.flatMap_snd_perm key d.waiters).append_right (d.heldNumbers ++
    d.unanswered)
  rwa [List.append_assoc] at hperm

theorem Accounts.close (h : d.Accounts) (hwaiting : d.Waiting) : d.close.Accounts := by
  rw [Dispatcher.close]
  generalize d.handles.map Prod.fst = keys
  induction keys generalizing d with
  | nil => exact h
  | cons key rest ih => exact ih (h.cancel hwaiting.toHandled key) (hwaiting.cancel key)

/-- A request that has been made and not settled is given up. -/
theorem abandon_cases (d : Dispatcher τ ρ) (number : Nat) :
    d.abandon number = d ∧ (number < d.made → number ∈ d.settledNumbers) ∨
      number < d.made ∧ number ∉ d.settledNumbers ∧
        d.abandon number =
          { d with
            abandoned := d.abandoned ++ [number]
            settled := d.settled ++ [(number, .cancelled)] } := by
  rw [abandon]
  split
  · next hnumber =>
    rw [Bool.and_eq_true, decide_eq_true_eq, Bool.not_eq_true'] at hnumber
    obtain ⟨hlt, hnot⟩ := hnumber
    refine .inr ⟨hlt, ?_, if_neg (ne_true_of_eq_false hnot)⟩
    rwa [← isSettled_iff, Bool.not_eq_true]
  · next hnumber =>
    refine .inl ⟨rfl, fun hlt ↦ ?_⟩
    rw [← isSettled_iff]
    simpa [hlt] using hnumber

theorem Accounts.abandon (h : d.Accounts) (number : Nat) : (d.abandon number).Accounts := by
  obtain ⟨hsame, -⟩ | ⟨hlt, hnot, heq⟩ := abandon_cases d number
  · rwa [hsame]
  · have hnumbers : (d.settled ++ [(number, Settled.cancelled)]).map Prod.fst = d.settledNumbers
        ++ [number] :=
      List.map_append
    rw [heq]
    refine ⟨h.answers, h.nodup_places, ?_, h.lt_of_mem_places, ?_, ?_, ?_⟩
    · rw [settledNumbers, hnumbers]
      exact h.nodup_settled.append (List.nodup_singleton _) (List.disjoint_singleton.mpr hnot)
    · rw [settledNumbers, hnumbers]
      intro n hn
      rcases List.mem_append.mp hn with hn | hn
      · exact h.lt_of_mem_settled n hn
      · rwa [List.mem_singleton.mp hn]
    · rw [settledNumbers, hnumbers]
      intro n hn hn'
      rcases List.mem_append.mp hn' with hn' | hn'
      · exact List.mem_append_left _ (h.apart n hn hn')
      · exact List.mem_append_right _ hn'
    · rw [settledNumbers, hnumbers]
      intro n hn
      exact (h.complete n hn).imp_right (List.mem_append_left _)

theorem Accounts.endWait (h : d.Accounts) (hwaiting : d.Waiting) (number : Nat) :
    (d.endWait number).Accounts := by
  obtain ⟨hsame, -⟩ | ⟨w, -, earlier, -, -, hlookup, heq⟩ := endWait_cases hwaiting number
  · rwa [hsame]
  · rw [heq]
    refine h.of_perm ?_ ?_ rfl rfl rfl
    · intro run hrun
      rw [inProgress, List.mem_append] at hrun
      simp only [note, List.mem_append, List.mem_singleton] at hrun
      rcases hrun with (hrun | rfl) | hrun
      · exact h.answers run (List.mem_append_left _ hrun)
      · exact ⟨earlier, rfl⟩
      · exact h.answers run (List.mem_append_right _ hrun)
    · -- What waits for the key goes from the first place to the second.
      have hperm := Ordered.flatMap_snd_perm w.key d.waiters
      rw [hlookup, Option.getD_some] at hperm
      refine .trans ?_ (hperm.symm.append_right (d.heldNumbers ++ d.unanswered))
      rw [places, unanswered_note]
      simp only [waitingNumbers, heldNumbers, inProgress, note, List.flatMap_append,
        List.flatMap_cons, List.flatMap_nil, List.append_nil, Mark.unanswered]
      generalize (Ordered.erase w.key d.waiters).flatMap Prod.snd = others
      generalize earlier ++ [number] = answers
      simp only [← List.append_assoc]
      refine .append_right _ (.append_right _ (List.perm_append_comm.trans ?_))
      rw [← List.append_assoc]

theorem Accounts.of_progress (h : d.Accounts) (hperm : d'.inProgress.Perm d.inProgress)
    (hwaiting : SameWaiting d d') (hsettled : SameSettled d d') : d'.Accounts := by
  refine h.of_perm (fun run hrun ↦ h.answers run (hperm.subset hrun)) ?_ hwaiting.made
    hsettled.settled
    hsettled.abandoned
  refine places_perm ?_ hperm hsettled.unanswered
  rw [waitingNumbers, waitingNumbers, hwaiting.waiters]

/-- A run that leaves its gate leaves the requests that it answers to be settled, or for good. -/
theorem Accounts.finish (h : d.Accounts) (number : Nat) (ending : Ending ρ) :
    (d.finish number ending).Accounts := by
  obtain ⟨hsame, -⟩ | ⟨before, v, after, hvisits, -, -, heq⟩ := finish_cases h number ending
  · rwa [hsame]
  · rw [heq]
    generalize hleft : note _ _ = left
    obtain ⟨users, gateOf, hrelease⟩ := release_eq left v.run.key
    rw [hrelease]
    have hprogress : d.inProgress.Perm
        (v.run :: (d.launched ++ (before ++ after).map Visit.run)) := by
      rw [inProgress, hvisits, List.map_append, List.map_append, List.map_cons,
        ← List.append_assoc, ← List.append_assoc]
      exact List.perm_middle
    have hleftProgress : ∀ run ∈ left.inProgress, run ∈ d.inProgress := by
      rw [← hleft]
      exact fun run hrun ↦ hprogress.symm.subset (List.mem_cons_of_mem _ hrun)
    have hheld : d.heldNumbers.Perm (v.run.answers ++ left.heldNumbers) := by
      rw [← hleft]
      exact hprogress.flatMap_right Run.answers
    have hunanswered : left.unanswered = d.unanswered ++ (Mark.ended v.run ending).unanswered := by
      rw [← hleft]
      exact unanswered_note _ _
    have hwaiting : left.waitingNumbers = d.waitingNumbers := by rw [← hleft]; rfl
    cases ending with
    | returned result =>
      refine h.settleAll _ hleftProgress ?_ (by rw [← hleft]; rfl) (by rw [← hleft]; rfl)
        (by rw [← hleft]; rfl)
      change d.places.Perm (v.run.answers ++ left.places)
      rw [places, places, hwaiting, hunanswered, Mark.unanswered, List.append_nil]
      refine ((hheld.append_right _).append_left _).trans ?_
      rw [List.append_assoc]
      exact List.perm_append_comm_assoc _ _ _
    | cancelled =>
      refine h.of_perm (fun run hrun ↦ h.answers run (hleftProgress run hrun)) ?_
        (by rw [← hleft]; rfl) (by rw [← hleft]; rfl) (by rw [← hleft]; rfl)
      change left.places.Perm d.places
      rw [places, places, hwaiting, hunanswered, Mark.unanswered]
      refine .append_left _ (.trans ?_ (hheld.symm.append_right _))
      rw [← List.append_assoc, List.append_assoc v.run.answers]
      exact List.perm_append_comm

theorem Accounts.move (h : d.Accounts) (hwaiting : d.Waiting) (move : Move τ ρ) :
    (d.move move).Accounts := by
  cases move with
  | request key task => exact h.request hwaiting key task
  | cancel key => exact h.cancel hwaiting.toHandled key
  | close => exact h.close hwaiting
  | abandon number => exact h.abandon number
  | setDelay delay => exact h.of_perm h.answers (.refl _) rfl rfl rfl
  | pass time =>
    rw [Dispatcher.move, pass]
    split
    · exact h.of_perm h.answers (.refl _) rfl rfl rfl
    · exact h
  | endWait number => exact h.endWait hwaiting number
  | enter => exact h.of_progress (inProgress_enter d).1 (sameWaiting_enter d) (inProgress_enter d).2
  | wake gate =>
    exact h.of_progress (.of_eq (inProgress_wake d gate).1) (sameWaiting_wake d gate)
      (inProgress_wake d gate).2
  | finish number ending => exact h.finish number ending

end Dispatcher

end MissionIndex.Schedule
