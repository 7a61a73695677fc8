import Mathlib.Data.List.Induction
import Mathlib.Data.List.Pairwise
import MissionIndex.Proofs.Schedule.Gates

/-!
# Which requests run

A request begins a wait, and its task is launched when the wait ends. Until then a further request
for its key, a cancellation of the key or a closing leaves nothing of the wait: such a move
*supersedes* what waits for the key. That is all that can come between a request and its task. The
task is launched once at most, at the end of the wait and not before, and its start follows as soon
as the runs launched before it for its key have ended.

## Stages

From the request on it is in one of three stages (`Stage`): it waits, it has been launched, or
something that supersedes it came first. Every move leaves it where it is, or takes it from the
first stage to one of the others.
-/

namespace MissionIndex.Schedule

/-- Whether a move leaves nothing of what waits for a key. -/
def Move.supersedes {τ ρ : Type} (key : String) : Move τ ρ → Bool
  | .request other _ | .cancel other => other == key
  | .close => true
  | _ => false

namespace Dispatcher

variable {τ ρ : Type} {d d' : Dispatcher τ ρ}

/-! ## What a move does to the waits -/

theorem waits_cancel (h : d.Handled) (key : String) : (d.cancel key).waits = d.othersThan key := by
  rw [cancel_eq h, (sameWaiting_settleAll _ _ _).waits]

theorem mem_waits_cancels (h : d.Waiting) (keys : List String) (w : Wait τ) :
    w ∈ (keys.foldl cancel d).waits ↔ w ∈ d.waits ∧ w.key ∉ keys := by
  induction keys generalizing d with
  | nil => simp
  | cons key rest ih =>
    rw [List.foldl_cons, ih (h.cancel key), waits_cancel h.toHandled, mem_othersThan, and_assoc,
      List.mem_cons, not_or]

theorem waits_close (h : d.Waiting) : d.close.waits = [] := by
  refine List.eq_nil_iff_forall_not_mem.mpr fun w hw ↦ ?_
  obtain ⟨hw, hkey⟩ := (mem_waits_cancels h _ w).mp hw
  rw [h.handles, List.map_map] at hkey
  exact hkey (List.mem_map_of_mem hw)

/-- The waits after a move are those before it that it has neither superseded nor ended, and that of
the request that it has made. -/
theorem mem_waits_move (h : d.Waiting) (move : Move τ ρ) (w : Wait τ) :
    w ∈ (d.move move).waits ↔
      (w ∈ d.waits ∧ move.supersedes w.key = false ∧ (move = .endWait w.number → d.now < w.due)) ∨
      ∃ key task, move = .request key task ∧ w = ⟨d.made, key, task, d.now + d.delay⟩ := by
  have hkeep : (d.move move).waits = d.waits → move.supersedes w.key = false →
    (∀ n, move ≠ .endWait n) →
      (∀ key task, move ≠ .request key task) →
      (w ∈ (d.move move).waits ↔
        (w ∈ d.waits ∧ move.supersedes w.key = false ∧ (move = .endWait w.number → d.now < w.due)) ∨
        ∃ key task, move = .request key task ∧ w = ⟨d.made, key, task, d.now + d.delay⟩) := by
    intro hsame hkey hend hrequest
    rw [hsame]
    simp [hkey, hend, hrequest]
  cases move with
  | request key task =>
    rw [Dispatcher.move, request_eq h]
    simp only [List.mem_append, mem_othersThan, List.mem_singleton, Move.supersedes,
      beq_eq_false_iff_ne]
    constructor
    · rintro (⟨hw, hkey⟩ | rfl)
      · exact .inl ⟨hw, Ne.symm hkey, by simp⟩
      · exact .inr ⟨key, task, rfl, rfl⟩
    · rintro (⟨hw, hkey, -⟩ | ⟨_, _, ⟨⟩, rfl⟩)
      · exact .inl ⟨hw, Ne.symm hkey⟩
      · exact .inr rfl
  | cancel key =>
    rw [Dispatcher.move, waits_cancel h.toHandled, mem_othersThan]
    simp [Move.supersedes, ne_comm]
  | close =>
    rw [Dispatcher.move, waits_close h]
    simp [Move.supersedes]
  | endWait number =>
    rw [Dispatcher.move]
    simp only [Move.supersedes, Move.endWait.injEq, reduceCtorEq, false_and, exists_false,
      or_false, true_and]
    obtain ⟨hsame, hdue⟩ | ⟨v, hv, earlier, hnumber, hdue, -, heq⟩ := endWait_cases h number
    · rw [hsame]
      exact ⟨fun hw ↦ ⟨hw, fun hnumber ↦ hdue w hw hnumber.symm⟩, fun hw ↦ hw.1⟩
    · rw [heq]
      simp only [note, mem_othersThan]
      refine and_congr_right fun hw ↦ ⟨fun hkey hnumber' ↦ ?_, fun hlt hkey ↦ ?_⟩
      · exact absurd (List.inj_on_of_nodup_map h.numbers hw hv
          (hnumber'.symm.trans hnumber.symm) ▸ rfl) hkey
      · have hsame := List.inj_on_of_nodup_map h.keys hw hv hkey
        rw [hsame, hdue] at hlt
        exact Nat.lt_irrefl _ (hlt hnumber.symm)
  | abandon number => exact hkeep (sameWaiting_abandon d number).waits rfl (by simp) (by simp)
  | setDelay delay => exact hkeep rfl rfl (by simp) (by simp)
  | pass time =>
    refine hkeep ?_ rfl (by simp) (by simp)
    rw [Dispatcher.move, pass]
    split <;> rfl
  | enter => exact hkeep (sameWaiting_enter d).waits rfl (by simp) (by simp)
  | wake gate => exact hkeep (sameWaiting_wake d gate).waits rfl (by simp) (by simp)
  | finish number ending =>
    exact hkeep (sameWaiting_finish d number ending).waits rfl (by simp) (by simp)

/-! ## What a move writes into the log -/

theorem log_endWait (h : d.Waiting) {w : Wait τ} (hw : w ∈ d.waits) (hdue : w.due ≤ d.now) :
    ∃ answers, (d.endWait w.number).log
      = d.log ++ [(d.now, .launched ⟨w.number, w.key, w.task, answers⟩)] := by
  obtain ⟨-, hlt⟩ | ⟨v, hv, earlier, hnumber, -, -, heq⟩ := endWait_cases h w.number
  · exact absurd (hlt w hw rfl) (Nat.not_lt_of_le hdue)
  · obtain rfl := List.inj_on_of_nodup_map h.numbers hv hw hnumber
    refine ⟨earlier ++ [v.number], ?_⟩
    rw [heq]
    rfl

/-- A move writes one mark at most, with the time. It tells the launch of a run only if the wait of
a request has ended, and the end of a run only if its task has ended. -/
theorem log_move (h : d.Sound) (move : Move τ ρ) :
    (d.move move).log = d.log ∨
      ∃ mark, (d.move move).log = d.log ++ [(d.now, mark)] ∧
        (∀ run, mark = .launched run → ∃ w ∈ d.waits, move = .endWait w.number ∧ w.due = d.now ∧
          run.number = w.number ∧ run.key = w.key ∧ run.task = w.task) ∧
        ∀ run ending, mark = .ended run ending →
          ∃ v ∈ d.visits, v.isRunning = true ∧ v.run = run ∧ move = .finish run.number ending := by
  cases move with
  | request key task => exact .inl (sameRuns_request h.waiting key task).log
  | cancel key => exact .inl (sameRuns_cancel h.waiting.toHandled key).log
  | close => exact .inl (sameRuns_close h.waiting).log
  | abandon number => exact .inl (sameRuns_abandon d number).log
  | setDelay delay => exact .inl rfl
  | pass time => exact .inl (sameRuns_pass d time).log
  | endWait number =>
    rw [Dispatcher.move]
    obtain ⟨hsame, -⟩ | ⟨w, hw, earlier, rfl, hdue, -, heq⟩ := endWait_cases h.waiting number
    · exact .inl (by rw [hsame])
    · refine .inr ⟨_, by rw [heq]; rfl, ?_, by rintro _ _ ⟨⟩⟩
      rintro run ⟨⟩
      exact ⟨w, hw, rfl, hdue, rfl, rfl, rfl⟩
  | enter =>
    rw [Dispatcher.move]
    obtain ⟨-, hsame⟩ | ⟨run, launched, -, ⟨number, -, heq⟩ | ⟨-, heq⟩⟩ := enter_cases h.gated
    · exact .inl (by rw [hsame])
    · exact .inl (by rw [heq])
    · exact .inr ⟨.started run, by rw [heq]; rfl, by simp, by simp⟩
  | wake gate =>
    rw [Dispatcher.move]
    obtain ⟨hsame, -⟩ | ⟨before, v, after, -, -, -, -, heq⟩ :=
      wake_cases h.gated h.accounts.nodup_visits gate
    · exact .inl (by rw [hsame])
    · exact .inr ⟨.started v.run, by rw [heq]; rfl, by simp, by simp⟩
  | finish number ending =>
    rw [Dispatcher.move]
    obtain ⟨hsame, -⟩ | ⟨before, v, after, hsplit, rfl, hrunning, heq⟩ :=
      finish_cases h.accounts number ending
    · exact .inl (by rw [hsame])
    · refine .inr ⟨.ended v.run ending, ?_, by simp, ?_⟩
      · rw [heq, (sameRuns_answer _ _ _).log]
        obtain ⟨users, gateOf, hrelease⟩ := release_eq (note _ (.ended v.run ending)) v.run.key
        rw [hrelease]
        rfl
      · rintro run ending ⟨⟩
        exact ⟨v, hsplit ▸ List.mem_append_right _ List.mem_cons_self, hrunning, rfl, rfl⟩

/-- A run is launched when the wait of its request ends, and by no other move. -/
theorem launches_move (h : d.Sound) (move : Move τ ρ) :
    (d.move move).launches = d.launches ∨
      ∃ run, (d.move move).launches = d.launches ++ [run] ∧
      ∃ w ∈ d.waits, move = .endWait w.number ∧
        w.due = d.now ∧ run.number = w.number := by
  obtain hsame | ⟨mark, hlog, hlaunch, -⟩ := log_move h move
  · exact .inl (congrArg (List.filterMap _) hsame)
  · have hlaunches : (d.move move).launches = d.launches ++ mark.launch?.toList := by
      rw [← launches_note, launches, hlog]
      rfl
    cases mark with
    | launched run =>
      obtain ⟨w, hw, hmove, hdue, hnumber, -⟩ := hlaunch run rfl
      exact .inr ⟨run, hlaunches, w, hw, hmove, hdue, hnumber⟩
    | started run => exact .inl (hlaunches.trans (List.append_nil _))
    | ended run result => exact .inl (hlaunches.trans (List.append_nil _))

theorem SameWaiting.now_made (h : SameWaiting d d') : d.now ≤ d'.now ∧ d.made ≤ d'.made :=
  ⟨Nat.le_of_eq h.now.symm, Nat.le_of_eq h.made.symm⟩

theorem now_made_cancels (h : d.Waiting) (keys : List String) :
    (keys.foldl cancel d).now = d.now ∧ (keys.foldl cancel d).made = d.made := by
  induction keys generalizing d with
  | nil => exact ⟨rfl, rfl⟩
  | cons key rest ih =>
    obtain ⟨hnow, hmade⟩ := ih (h.cancel key)
    have hcancel : (d.cancel key).now = d.now ∧ (d.cancel key).made = d.made := by
      rw [cancel_eq h.toHandled, (sameWaiting_settleAll _ _ _).now,
        (sameWaiting_settleAll _ _ _).made]
      exact ⟨rfl, rfl⟩
    exact ⟨hnow.trans hcancel.1, hmade.trans hcancel.2⟩

/-- Time does not go back, and numbers are not given again. -/
theorem now_made_le_move (h : d.Waiting) (move : Move τ ρ) :
    d.now ≤ (d.move move).now ∧ d.made ≤ (d.move move).made := by
  cases move with
  | request key task =>
    rw [Dispatcher.move, request_eq h]
    exact ⟨Nat.le_refl _, Nat.le_succ _⟩
  | cancel key =>
    obtain ⟨hnow, hmade⟩ := now_made_cancels h [key]
    exact ⟨Nat.le_of_eq hnow.symm, Nat.le_of_eq hmade.symm⟩
  | close =>
    obtain ⟨hnow, hmade⟩ := now_made_cancels h (d.handles.map Prod.fst)
    exact ⟨Nat.le_of_eq hnow.symm, Nat.le_of_eq hmade.symm⟩
  | abandon number => exact (sameWaiting_abandon d number).now_made
  | setDelay delay => exact ⟨Nat.le_refl _, Nat.le_refl _⟩
  | pass time =>
    rw [Dispatcher.move, pass]
    split
    · exact ⟨Nat.le_max_left _ _, Nat.le_refl _⟩
    · exact ⟨Nat.le_refl _, Nat.le_refl _⟩
  | endWait number =>
    rw [Dispatcher.move]
    obtain ⟨hsame, -⟩ | ⟨w, -, earlier, -, -, -, heq⟩ := endWait_cases h number
    · rw [hsame]
      exact ⟨Nat.le_refl _, Nat.le_refl _⟩
    · rw [heq]
      exact ⟨Nat.le_refl _, Nat.le_refl _⟩
  | enter => exact (sameWaiting_enter d).now_made
  | wake gate => exact (sameWaiting_wake d gate).now_made
  | finish number ending => exact (sameWaiting_finish d number ending).now_made

/-! ## Each run once -/

/-- The numbers of the requests that runs have been launched for. -/
def launchedNumbers (d : Dispatcher τ ρ) : List Nat := d.launches.flatMap Run.answers

/-- A request waits, or one run has been launched for it, whose task is that of the last request
among those that it answers. -/
structure Distinct (d : Dispatcher τ ρ) : Prop where
  nodup : (d.launchedNumbers ++ d.waitingNumbers).Nodup
  lt : ∀ n ∈ d.launchedNumbers, n < d.made
  last : ∀ run ∈ d.launches, ∃ earlier, run.answers = earlier ++ [run.number]

theorem distinct_empty : ({} : Dispatcher τ ρ).Distinct := ⟨.nil, nofun, nofun⟩

theorem Distinct.of_perm (h : d.Distinct) (dropped : List Nat)
    (hlaunches : d'.launches = d.launches)
    (hwaiting : d.waitingNumbers.Perm (dropped ++ d'.waitingNumbers)) (hmade : d.made ≤ d'.made) :
    d'.Distinct := by
  have hnumbers : d'.launchedNumbers = d.launchedNumbers := congrArg (List.flatMap _) hlaunches
  refine ⟨?_, ?_, ?_⟩
  · have hnodup := (hwaiting.append_left d.launchedNumbers).nodup_iff.mp h.nodup
    rw [hnumbers]
    exact ((List.sublist_append_right dropped _).append_left _).nodup hnodup
  · rw [hnumbers]
    exact fun n hn ↦ Nat.lt_of_lt_of_le (h.lt n hn) hmade
  · rw [hlaunches]
    exact h.last

theorem Distinct.of_same (h : d.Distinct) (hlaunches : d'.launches = d.launches)
    (hsame : SameWaiting d d') :
    d'.Distinct := by
  refine h.of_perm [] hlaunches ?_ (Nat.le_of_eq hsame.made.symm)
  rw [waitingNumbers, waitingNumbers, hsame.waiters]
  exact .refl _

theorem Distinct.request (h : d.Distinct) (hsound : d.Sound) (key : String) (task : τ) :
    (d.request key task).Distinct := by
  have hlaunches : (d.request key task).launches = d.launches :=
    congrArg (List.filterMap _) (sameRuns_request hsound.waiting key task).log
  have hwaiting : (d.request key task).waitingNumbers.Perm (d.made :: d.waitingNumbers) := by
    rw [request_eq hsound.waiting]
    exact Ordered.flatMap_snd_push_perm key d.made d.waiters
  have hmade : (d.request key task).made = d.made + 1 := by rw [request_eq hsound.waiting]
  refine ⟨?_, ?_, ?_⟩
  · rw [launchedNumbers, hlaunches]
    refine (hwaiting.append_left _).nodup_iff.mpr
      (List.perm_middle.nodup_iff.mpr (List.nodup_cons.mpr ⟨?_, h.nodup⟩))
    rintro hn
    -- Numbers are given in turn.
    refine Nat.lt_irrefl d.made ?_
    rcases List.mem_append.mp hn with hn | hn
    · exact h.lt _ hn
    · exact hsound.accounts.lt_of_mem_places _ (List.mem_append_left _ hn)
  · rw [launchedNumbers, hlaunches, hmade]
    exact fun n hn ↦ Nat.lt_succ_of_lt (h.lt n hn)
  · rw [hlaunches]
    exact h.last

theorem Distinct.cancel (h : d.Distinct) (hwaiting : d.Waiting) (key : String) :
    (d.cancel key).Distinct := by
  refine h.of_perm ((d.waiters.lookup key).getD [])
    (congrArg (List.filterMap _) (sameRuns_cancel hwaiting.toHandled key).log) ?_ ?_
  · rw [cancel_eq hwaiting.toHandled, waitingNumbers, waitingNumbers,
      (sameWaiting_settleAll _ _ _).waiters]
    exact Ordered.flatMap_snd_perm key d.waiters
  · exact (now_made_le_move hwaiting (.cancel key)).2

theorem Distinct.close (h : d.Distinct) (hwaiting : d.Waiting) : d.close.Distinct := by
  rw [Dispatcher.close]
  generalize d.handles.map Prod.fst = keys
  induction keys generalizing d with
  | nil => exact h
  | cons key rest ih => exact ih (h.cancel hwaiting key) (hwaiting.cancel key)

theorem Distinct.endWait (h : d.Distinct) (hsound : d.Sound) (number : Nat) :
    (d.endWait number).Distinct := by
  obtain ⟨hsame, -⟩ | ⟨w, hw, earlier, -, -, hlookup, heq⟩ := endWait_cases hsound.waiting number
  · rwa [hsame]
  · have hlaunches : (d.endWait number).launches = d.launches ++
        [⟨number, w.key, w.task, earlier ++ [number]⟩] := by
      rw [heq]
      exact launches_note _ _
    have hnumbers : (d.endWait number).launchedNumbers = d.launchedNumbers ++
        (earlier ++ [number]) := by
      rw [launchedNumbers, hlaunches, List.flatMap_append, List.flatMap_singleton, launchedNumbers]
    have hwaiting : d.waitingNumbers.Perm ((earlier ++ [number]) ++
        (d.endWait number).waitingNumbers) := by
      have hperm := Ordered.flatMap_snd_perm w.key d.waiters
      rw [hlookup] at hperm
      rw [heq]
      exact hperm
    refine ⟨?_, ?_, ?_⟩
    · rw [hnumbers, List.append_assoc]
      exact (hwaiting.append_left _).nodup_iff.mp h.nodup
    · rw [hnumbers]
      rintro n hn
      refine Nat.lt_of_lt_of_le ?_ (now_made_le_move hsound.waiting (.endWait number)).2
      rcases List.mem_append.mp hn with hn | hn
      · exact h.lt n hn
      · refine hsound.accounts.lt_of_mem_places n (List.mem_append_left _ ?_)
        exact hwaiting.symm.subset (List.mem_append_left _ hn)
    · rw [hlaunches]
      rintro run hrun
      rcases List.mem_append.mp hrun with hrun | hrun
      · exact h.last run hrun
      · exact ⟨earlier, List.mem_singleton.mp hrun ▸ rfl⟩

theorem Distinct.move (h : d.Distinct) (hsound : d.Sound) (move : Move τ ρ) :
    (d.move move).Distinct := by
  have hlaunches : (∀ n, move ≠ .endWait n) → (d.move move).launches = d.launches := fun hmove ↦ by
    obtain hsame | ⟨run, -, w, -, hend, -⟩ := launches_move hsound move
    · exact hsame
    · exact absurd hend (hmove w.number)
  cases move with
  | request key task => exact h.request hsound key task
  | cancel key => exact h.cancel hsound.waiting key
  | close => exact h.close hsound.waiting
  | abandon number => exact h.of_same (hlaunches (by simp)) (sameWaiting_abandon d number)
  | setDelay delay => exact h.of_same (hlaunches (by simp)) ⟨rfl, rfl, rfl, rfl, rfl⟩
  | pass time =>
    refine h.of_perm [] (hlaunches (by simp)) ?_ (now_made_le_move hsound.waiting (.pass time)).2
    rw [Dispatcher.move, pass]
    split <;> exact .refl _
  | endWait number => exact h.endWait hsound number
  | enter => exact h.of_same (hlaunches (by simp)) (sameWaiting_enter d)
  | wake gate => exact h.of_same (hlaunches (by simp)) (sameWaiting_wake d gate)
  | finish number ending =>
    exact h.of_same (hlaunches (by simp)) (sameWaiting_finish d number ending)

theorem Distinct.nodup_launches (h : d.Distinct) : (d.launches.map Run.number).Nodup :=
  (sublist_flatMap_answers h.last).nodup h.nodup.of_append_left

theorem Distinct.launched_iff (h : d.Distinct) {run : Run τ} (hrun : run ∈ d.launches) {n : Nat}
    (hn : n ∈ run.answers) : n ∈ d.launches.map Run.number ↔ n = run.number := by
  constructor
  · rintro hlaunched
    obtain ⟨other, hother, rfl⟩ := List.mem_map.mp hlaunched
    by_contra hne
    obtain ⟨earlier, hearlier⟩ := h.last other hother
    have hmem : other.number ∈ other.answers :=
      hearlier ▸ List.mem_append_right _ (List.mem_singleton.mpr rfl)
    have hsymm : Std.Symm (Function.onFun List.Disjoint (Run.answers (τ := τ))) :=
      ⟨fun _ _ hab _ ha hb ↦ hab hb ha⟩
    exact (List.nodup_flatMap.mp h.nodup.of_append_left).2.forall hrun hother
      (fun he ↦ hne (he ▸ rfl)) hn hmem
  · rintro rfl
    exact List.mem_map_of_mem hrun

theorem Distinct.notMem_waits (h : d.Distinct) (hwaiting : d.Waiting) {n : Nat}
    (hn : n ∈ d.launches.map Run.number) : n ∉ d.waits.map Wait.number := by
  rintro hmem
  obtain ⟨w, hw, rfl⟩ := List.mem_map.mp hmem
  obtain ⟨earlier, hlookup⟩ := hwaiting.last w hw
  refine List.disjoint_of_nodup_append h.nodup ((sublist_flatMap_answers h.last).subset hn) ?_
  exact List.mem_flatMap.mpr ⟨_, Ordered.mem_of_lookup hlookup,
    List.mem_append_right _ (List.mem_singleton.mpr rfl)⟩

theorem Distinct.lt_of_mem_launches (h : d.Distinct) {n : Nat}
    (hn : n ∈ d.launches.map Run.number) : n < d.made :=
  h.lt n ((sublist_flatMap_answers h.last).subset hn)

theorem notMem_waits_move (h : d.Waiting) {n : Nat} (hlt : n < d.made)
    (hgone : n ∉ d.waits.map Wait.number) (move : Move τ ρ) :
    n ∉ (d.move move).waits.map Wait.number := by
  rintro hn
  obtain ⟨w, hw, rfl⟩ := List.mem_map.mp hn
  obtain ⟨hw, -⟩ | ⟨key, task, -, rfl⟩ := (mem_waits_move h move w).mp hw
  · exact hgone (List.mem_map_of_mem hw)
  · exact Nat.lt_irrefl _ hlt

theorem Sound.mem_launches (h : d.Sound) {run : Run τ} (hrun : run ∈ d.starts) :
    run ∈ d.launches := by
  have hfor : run ∈ runsFor run.key d.starts := List.mem_filter.mpr ⟨hrun, beq_self_eq_true _⟩
  exact (List.mem_filter.mp ((h.inOrder.starts_prefix h.gated run.key).subset hfor)).1

theorem Distinct.nodup_starts (h : d.Distinct) (hsound : d.Sound) :
    (d.starts.map Run.number).Nodup := by
  refine List.Nodup.map_on (fun run hrun other hother hnumber ↦ ?_) (List.nodup_iff_sublist.mpr
    fun run hrun ↦ ?_)
  · exact List.inj_on_of_nodup_map h.nodup_launches (hsound.mem_launches hrun)
      (hsound.mem_launches hother) hnumber
  · -- The runs that have started for a key are the first that were launched for it.
    have htwice : [run, run].Sublist (runsFor run.key d.starts) := by
      simpa [runsFor] using hrun.filter (·.key == run.key)
    have hlaunched := htwice.trans (hsound.inOrder.starts_prefix hsound.gated run.key).sublist
    exact List.nodup_iff_sublist.mp h.nodup_launches.of_map run
      (hlaunched.trans List.filter_sublist)

/-! ## When the loop has nothing to do -/

/-- There is nothing left to do before time goes on or something comes from outside. -/
def IsIdle (d : Dispatcher τ ρ) : Prop := d.launched = [] ∧ ∀ gate, d.wake gate = d

theorem Sound.isRunning_of_isIdle (h : d.Sound) (hidle : d.IsIdle) {key : String} {first : Visit τ}
    {rest : List (Visit τ)} (hline : d.line key = first :: rest) : first.isRunning = true := by
  obtain ⟨number, hgate⟩ :=
    Option.isSome_iff_exists.mp ((h.gated.isSome_gateOf_iff key).mpr (hline ▸ by simp))
  obtain ⟨-, -, hpasses⟩ := h.gated.line key number hgate
  obtain ⟨-, hfree⟩ | ⟨before, v, after, -, -, -, -, heq⟩ :=
    wake_cases h.gated h.accounts.nodup_visits number
  · rw [hline] at hpasses
    generalize d.gateAt number = gate at hpasses hfree
    cases hpasses with
    | held hfirst => exact hfirst
    | free => simp at hfree
  · -- The gate would let somebody go on.
    have hlog := congrArg Dispatcher.log ((hidle.2 number).symm.trans heq)
    simp [note] at hlog

/-- Of a list without repetition, an item is among the first and the next just if all before it are
among the first. -/
theorem mem_append_take_one_iff {α : Type} {earlier later first rest : List α} {a : α}
    (hnodup : (earlier ++ a :: later).Nodup) (hsplit : earlier ++ a :: later = first ++ rest) :
    a ∈ first ++ rest.take 1 ↔ ∀ b ∈ earlier, b ∈ first := by
  obtain ⟨more, rfl, hmore⟩ | ⟨more, rfl, rfl⟩ := List.append_eq_append_iff.mp hsplit
  · refine iff_of_true ?_ fun b hb ↦ List.mem_append_left _ hb
    cases more with
    | nil =>
      obtain rfl : a :: later = rest := hmore
      exact List.mem_append_right _ List.mem_cons_self
    | cons b more =>
      obtain ⟨rfl, -⟩ := List.cons.inj hmore
      exact List.mem_append_left _ (List.mem_append_right _ List.mem_cons_self)
  · cases more with
    | nil => simp
    | cons b more =>
      rw [List.append_assoc, List.nodup_append'] at hnodup
      obtain ⟨-, hrest, hdisjoint⟩ := hnodup
      refine iff_of_false ?_ fun hall ↦ ?_
      · rintro ha
        rcases List.mem_append.mp ha with ha | ha
        · exact hdisjoint ha (by simp)
        · obtain rfl : a = b := by simpa using ha
          exact (List.nodup_cons.mp hrest).1 (by simp)
      · exact hdisjoint (hall b (by simp)) List.mem_cons_self

/-- In an idle dispatcher a run has started just if those launched before it for its key have
ended. -/
theorem started_iff_of_isIdle (h : d.Sound) (hdistinct : d.Distinct) (hidle : d.IsIdle)
    {key : String} {earlier later : List (Run τ)} {run : Run τ}
    (hsplit : runsFor key d.launches = earlier ++ run :: later) :
    run ∈ d.starts ↔ ∀ r ∈ earlier, r ∈ d.ends := by
  have hkey : ∀ r ∈ earlier ++ run :: later, r.key = key := fun r hr ↦ by
    rw [← hsplit] at hr
    simpa using (List.mem_filter.mp hr).2
  have hfor : ∀ runs : List (Run τ), ∀ r ∈ earlier ++ run :: later,
      (r ∈ runs ↔ r ∈ runsFor key runs) :=
    fun runs r hr ↦ by simp [runsFor, hkey r hr]
  have hlaunches : earlier ++ run :: later = runsFor key d.ends ++ (d.line key).map Visit.run := by
    rw [← hsplit, h.inOrder.launches key, hidle.1]
    exact congrArg _ (List.append_nil _)
  have hstarts : runsFor key d.starts = runsFor key d.ends ++
      ((d.line key).map Visit.run).take 1 := by
    rw [h.inOrder.starts key]
    refine congrArg _ ?_
    cases hline : d.line key with
    | nil => rfl
    | cons first rest =>
      have hone := (h.gated.filter_isRunning key).1
      rw [hline, List.filter_cons_of_pos (h.isRunning_of_isIdle hidle hline), List.length_cons]
        at hone
      rw [List.filter_cons_of_pos (h.isRunning_of_isIdle hidle hline),
        List.length_eq_zero_iff.mp (Nat.le_zero.mp (Nat.le_of_succ_le_succ hone))]
      rfl
  rw [hfor d.starts run (by simp), hstarts,
    mem_append_take_one_iff (hsplit ▸ hdistinct.nodup_launches.of_map.filter _) hlaunches]
  exact forall₂_congr fun r hr ↦ (hfor d.ends r (List.mem_append_left _ hr)).symm

/-! ## What becomes of a request -/

/-- Whether at some point of a list an item comes that has a property there. -/
def Sometime {α : Type} (p : List α → α → Prop) (items : List α) : Prop :=
  ∃ before item after, items = before ++ item :: after ∧ p before item

theorem not_sometime_nil {α : Type} (p : List α → α → Prop) : ¬ Sometime p [] := by
  rintro ⟨before, item, after, hsplit, -⟩
  simp at hsplit

theorem sometime_concat {α : Type} {p : List α → α → Prop} {items : List α} {item : α} :
    Sometime p (items ++ [item]) ↔ Sometime p items ∨ p items item := by
  constructor
  · rintro ⟨before, other, after, hsplit, hp⟩
    rcases List.eq_nil_or_concat after with rfl | ⟨after, last, rfl⟩
    · obtain ⟨rfl, hlast⟩ := List.append_inj' hsplit rfl
      obtain ⟨rfl, -⟩ := List.cons.inj hlast
      exact .inr hp
    · rw [List.concat_eq_append, ← List.cons_append, ← List.append_assoc] at hsplit
      exact .inl ⟨before, other, after, (List.append_inj' hsplit rfl).1, hp⟩
  · rintro (⟨before, other, after, rfl, hp⟩ | hp)
    · exact ⟨before, other, after ++ [item], by simp, hp⟩
    · exact ⟨items, item, [], rfl, hp⟩

section Request

variable (before : List (Move τ ρ)) (key : String) (task : τ) (after : List (Move τ ρ))

/-- A dispatcher after moves, a request and more moves. -/
def since (before : List (Move τ ρ)) (key : String) (task : τ) (after : List (Move τ ρ)) :
    Dispatcher τ ρ :=
  follow (before ++ .request key task :: after)

/-- When the wait of a request that comes after moves is due. -/
def dueAfter (before : List (Move τ ρ)) : Nat := (follow before).now + (follow before).delay

/-- The wait of the request has been ended when it was due. -/
def Fired : Prop :=
  Sometime (fun mid move ↦ move = .endWait (follow before).made ∧
    dueAfter before ≤ (since before key task mid).now)
    after

/-- Something that supersedes the request has come before its wait has been ended. -/
def Overtaken : Prop :=
  Sometime (fun mid move ↦ move.supersedes key = true ∧ ¬ Fired before key task mid) after

/-- What has become of a request. -/
inductive Stage : Prop
  | waits : ⟨(follow before).made, key, task, dueAfter before⟩
    ∈ (since before key task after).waits →
      (follow before).made ∉ (since before key task after).launches.map Run.number →
      ¬ Fired before key task after → ¬ Overtaken before key task after → Stage
  | launched : (follow before).made ∈ (since before key task after).launches.map Run.number →
      Fired before key task after → ¬ Overtaken before key task after →
      dueAfter before ≤ (since before key task after).now → Stage
  | overtaken : (follow before).made ∉ (since before key task after).launches.map Run.number →
      (follow before).made ∉ (since before key task after).waits.map Wait.number →
      Overtaken before key task after → Stage

end Request

theorem since_concat (before : List (Move τ ρ)) (key : String) (task : τ) (after : List (Move τ ρ))
    (move : Move τ ρ) : since before key task (after ++ [move])
      = (since before key task after).move move := by
  rw [since, since, follow, follow, ← List.cons_append, ← List.append_assoc, List.foldl_append]
  rfl

theorem since_nil (before : List (Move τ ρ)) (key : String) (task : τ) :
    since before key task [] = (follow before).request key task := by
  rw [since, follow, List.foldl_append]
  rfl

theorem sound_since (before : List (Move τ ρ)) (key : String) (task : τ) (after : List (Move τ ρ)) :
    (since before key task after).Sound := sound_follow _

theorem distinct_follow (moves : List (Move τ ρ)) : (follow moves).Distinct := by
  induction moves using List.reverseRecOn with
  | nil => exact distinct_empty
  | append_singleton moves move ih =>
    rw [follow, List.foldl_append]
    exact ih.move (sound_follow moves) move

theorem made_lt_made_since (before : List (Move τ ρ)) (key : String) (task : τ)
    (after : List (Move τ ρ)) :
    (follow before).made < (since before key task after).made := by
  induction after using List.reverseRecOn with
  | nil =>
    rw [since_nil, request_eq (sound_follow before).waiting]
    exact Nat.lt_succ_self _
  | append_singleton after move ih =>
    rw [since_concat]
    exact Nat.lt_of_lt_of_le ih
      (now_made_le_move (sound_since before key task after).waiting move).2

theorem mem_launches_move {d : Dispatcher τ ρ} (h : d.Sound) {move : Move τ ρ} {n : Nat}
    (hn : n ∈ (d.move move).launches.map Run.number) :
    n ∈ d.launches.map Run.number ∨ ∃ w ∈ d.waits, w.number = n ∧ move = .endWait n ∧
    w.due = d.now := by
  obtain hsame | ⟨run, hlaunches, w, hw, hmove, hdue, hnumber⟩ := launches_move h move
  · rw [hsame] at hn
    exact .inl hn
  · rw [hlaunches, List.map_append, List.mem_append, List.map_singleton, List.mem_singleton] at hn
    rcases hn with hn | rfl
    · exact .inl hn
    · exact .inr ⟨w, hw, hnumber.symm, hnumber ▸ hmove, hdue⟩

/-- A request that waits goes on waiting, is launched, or is superseded. -/
theorem stage_of_waits {before : List (Move τ ρ)} {key : String} {task : τ}
    {after : List (Move τ ρ)} (hwait : ⟨(follow before).made, key, task, dueAfter before⟩
      ∈ (since before key task after).waits)
    (hlaunch : (follow before).made ∉ (since before key task after).launches.map Run.number)
    (hfired : ¬ Fired before key task after) (hovertaken : ¬ Overtaken before key task after)
    (move : Move τ ρ) : Stage before key task (after ++ [move]) := by
  have hsound := sound_since before key task after
  -- There is one wait with the number.
  have hone : ∀ v ∈ (since before key task after).waits, v.number = (follow before).made →
      v = ⟨(follow before).made, key, task, dueAfter before⟩ := fun v hv hnumber ↦
    List.inj_on_of_nodup_map hsound.waiting.numbers hv hwait hnumber
  by_cases hkey : move.supersedes key = true
  · refine .overtaken ?_ ?_ (sometime_concat.mpr (.inr ⟨hkey, hfired⟩))
    · rw [since_concat]
      rintro hn
      rcases mem_launches_move hsound hn with hn | ⟨w, -, -, rfl, -⟩
      · exact hlaunch hn
      · cases hkey
    · rw [since_concat]
      rintro hn
      obtain ⟨v, hv, hnumber⟩ := List.mem_map.mp hn
      rcases (mem_waits_move hsound.waiting move v).mp hv with ⟨hv, hnot, -⟩ | ⟨other,
        task', rfl, rfl⟩
      · rw [hone v hv hnumber, hkey] at hnot
        cases hnot
      · exact absurd hnumber (Nat.ne_of_gt (made_lt_made_since before key task after))
  · have hovertaken' : ¬ Overtaken before key task (after ++ [move]) := fun hsometime ↦
      (sometime_concat.mp hsometime).elim hovertaken fun hnow ↦ hkey hnow.1
    by_cases hend : move = .endWait (follow before).made ∧
      dueAfter before ≤ (since before key task after).now
    · refine .launched ?_ (sometime_concat.mpr (.inr hend)) hovertaken' ?_
      · obtain ⟨answers, hlog⟩ := log_endWait hsound.waiting hwait hend.2
        rw [since_concat, hend.1, launches, Dispatcher.move, hlog, List.filterMap_append,
          List.map_append]
        exact List.mem_append_right _ (List.mem_singleton.mpr rfl)
      · rw [since_concat]
        exact Nat.le_trans hend.2 (now_made_le_move hsound.waiting move).1
    · refine .waits ?_ ?_ (fun hsometime ↦ (sometime_concat.mp hsometime).elim hfired hend)
        hovertaken'
      · rw [since_concat]
        refine (mem_waits_move hsound.waiting move _).mpr
          (.inl ⟨hwait, by simpa using hkey, fun hmove ↦ ?_⟩)
        exact Nat.lt_of_not_le fun hdue ↦ hend ⟨hmove, hdue⟩
      · rw [since_concat]
        rintro hn
        rcases mem_launches_move hsound hn with hn | ⟨w, hw, hnumber, hmove, hdue⟩
        · exact hlaunch hn
        · rw [hone w hw hnumber] at hdue
          exact hend ⟨hmove, Nat.le_of_eq hdue⟩

/-- Every move leaves a request in one of the stages. -/
theorem Stage.concat {before : List (Move τ ρ)} {key : String} {task : τ} {after : List (Move τ ρ)}
    (h : Stage before key task after) (move : Move τ ρ) :
    Stage before key task (after ++ [move]) := by
  have hsound := sound_since before key task after
  cases h with
  | waits hwait hlaunch hfired hovertaken =>
      exact stage_of_waits hwait hlaunch hfired hovertaken move
  | launched hlaunch hfired hovertaken hdue =>
    refine .launched ?_ (sometime_concat.mpr (.inl hfired)) ?_ ?_
    · rw [since_concat]
      obtain hsame | ⟨run, hlaunches, -⟩ := launches_move hsound move
      · rwa [hsame]
      · rw [hlaunches, List.map_append]
        exact List.mem_append_left _ hlaunch
    · rintro hsometime
      rcases sometime_concat.mp hsometime with hsometime | ⟨-, hnot⟩
      · exact hovertaken hsometime
      · exact hnot hfired
    · rw [since_concat]
      exact Nat.le_trans hdue (now_made_le_move hsound.waiting move).1
  | overtaken hlaunch hgone hovertaken =>
    refine .overtaken ?_ ?_ (sometime_concat.mpr (.inl hovertaken))
    · rw [since_concat]
      rintro hn
      rcases mem_launches_move hsound hn with hn | ⟨w, hw, hnumber, -⟩
      · exact hlaunch hn
      · exact hgone (hnumber ▸ List.mem_map_of_mem hw)
    · rw [since_concat]
      exact notMem_waits_move hsound.waiting (made_lt_made_since before key task after) hgone move

theorem stage (before : List (Move τ ρ)) (key : String) (task : τ) (after : List (Move τ ρ)) :
    Stage before key task after := by
  induction after using List.reverseRecOn with
  | nil =>
    have hwaiting := (sound_follow before).waiting
    refine .waits ?_ ?_ (not_sometime_nil _) (not_sometime_nil _)
    · rw [since_nil, request_eq hwaiting]
      exact List.mem_append_right _ (List.mem_singleton.mpr rfl)
    · rw [since_nil, request_eq hwaiting]
      exact fun hn ↦ Nat.lt_irrefl _ ((distinct_follow before).lt_of_mem_launches hn)
  | append_singleton after move ih => exact ih.concat move

theorem Stage.eq_of_mem_waits {before : List (Move τ ρ)} {key : String} {task : τ}
    {after : List (Move τ ρ)} (h : Stage before key task after) {w : Wait τ}
    (hw : w ∈ (since before key task after).waits) (hnumber : w.number = (follow before).made) :
    w = ⟨(follow before).made, key, task, dueAfter before⟩ := by
  have hwaiting := (sound_since before key task after).waiting
  have hmem : (follow before).made ∈ (since before key task after).waits.map Wait.number :=
    hnumber ▸ List.mem_map_of_mem hw
  cases h with
  | waits hwait => exact List.inj_on_of_nodup_map hwaiting.numbers hw hwait hnumber
  | launched hlaunch => exact absurd hmem ((distinct_follow _).notMem_waits hwaiting hlaunch)
  | overtaken _ hgone => exact absurd hmem hgone

/-! ## When -/

theorem mem_launches_iff {run : Run τ} :
    run ∈ d.launches ↔ ∃ time, (time, .launched run) ∈ d.log := by
  rw [launches, List.mem_filterMap]
  constructor
  · rintro ⟨⟨time, mark⟩, he, hrun⟩
    cases mark with
    | launched other =>
      obtain rfl := Option.some.inj hrun
      exact ⟨time, he⟩
    | started other => cases hrun
    | ended other result => cases hrun
  · rintro ⟨time, he⟩
    exact ⟨_, he, rfl⟩

theorem mem_starts_iff {run : Run τ} : run ∈ d.starts ↔ ∃ time, (time, .started run) ∈ d.log := by
  rw [starts, List.mem_filterMap]
  constructor
  · rintro ⟨⟨time, mark⟩, he, hrun⟩
    cases mark with
    | launched other => cases hrun
    | started other =>
      obtain rfl := Option.some.inj hrun
      exact ⟨time, he⟩
    | ended other result => cases hrun
  · rintro ⟨time, he⟩
    exact ⟨_, he, rfl⟩

/-- The run of a request is launched when its wait is due, and starts then or later. -/
theorem times_of_log (before : List (Move τ ρ)) (key : String) (task : τ)
    (after : List (Move τ ρ)) :
    (∀ time run, (time, .launched run) ∈ (since before key task after).log →
      run.number = (follow before).made →
      time = dueAfter before ∧ run.key = key ∧ run.task = task) ∧
    ∀ time run, (time, .started run) ∈ (since before key task after).log →
    run.number = (follow before).made →
      dueAfter before ≤ time ∧ run.key = key ∧ run.task = task := by
  induction after using List.reverseRecOn with
  | nil =>
    have hlog : (since before key task []).log = (follow before).log := by
      rw [since_nil, request_eq (sound_follow before).waiting]
    rw [hlog]
    have hnone : ∀ run ∈ (follow before).launches, run.number ≠ (follow before).made :=
      fun run hrun ↦
        Nat.ne_of_lt ((distinct_follow before).lt_of_mem_launches (List.mem_map_of_mem hrun))
    refine ⟨fun time run he hnumber ↦ ?_, fun time run he hnumber ↦ ?_⟩
    · exact absurd hnumber (hnone run (mem_launches_iff.mpr ⟨time, he⟩))
    · exact absurd hnumber (hnone run
        ((sound_follow before).mem_launches (mem_starts_iff.mpr ⟨time, he⟩)))
  | append_singleton after move ih =>
    obtain ⟨ihlaunched, ihstarted⟩ := ih
    have hsound := sound_since before key task after
    have hstage := stage before key task after
    have hsound' := sound_since before key task (after ++ [move])
    rw [since_concat] at hsound' ⊢
    obtain hsame | ⟨mark, hlog, hlaunch, -⟩ := log_move hsound move
    · rw [hsame]
      exact ⟨ihlaunched, ihstarted⟩
    · have hlaunched : ∀ time run, (time, .launched run)
        ∈ ((since before key task after).move move).log →
          run.number = (follow before).made → time = dueAfter before ∧ run.key = key ∧
          run.task = task := by
        rintro time run he hnumber
        rw [hlog, List.mem_append, List.mem_singleton] at he
        rcases he with he | he
        · exact ihlaunched time run he hnumber
        · obtain ⟨rfl, rfl⟩ := Prod.mk.inj he
          obtain ⟨w, hw, -, hdue, hnumber', hkey, htask⟩ := hlaunch run rfl
          obtain rfl := hstage.eq_of_mem_waits hw (hnumber'.symm.trans hnumber)
          exact ⟨hdue.symm, hkey, htask⟩
      refine ⟨hlaunched, fun time run he hnumber ↦ ?_⟩
      have hrun : run ∈ ((since before key task after).move move).launches :=
        hsound'.mem_launches (mem_starts_iff.mpr ⟨time, he⟩)
      obtain ⟨time', he'⟩ := mem_launches_iff.mp hrun
      obtain ⟨-, hkey, htask⟩ := hlaunched time' run he' hnumber
      refine ⟨?_, hkey, htask⟩
      rw [hlog, List.mem_append, List.mem_singleton] at he
      rcases he with he | he
      · exact (ihstarted time run he hnumber).1
      · obtain ⟨rfl, -⟩ := Prod.mk.inj he
        have hn := List.mem_map_of_mem (f := Run.number) hrun
        rw [hnumber] at hn
        rcases mem_launches_move hsound hn with hn | ⟨w, hw, hnumber', -, hdue⟩
        · cases hstage with
          | waits _ hnot => exact absurd hn hnot
          | launched _ _ _ hdue => exact hdue
          | overtaken hnot => exact absurd hn hnot
        · obtain rfl := hstage.eq_of_mem_waits hw hnumber'
          exact Nat.le_of_eq hdue

/-- **A request runs unless something supersedes it before its wait is over.** Whatever moves come
before a request and after it: once its wait would be over, its task has been launched just if no
further request for its key, cancellation of the key or closing has come before the end of the wait.
Until then it waits, and its wait can be ended as soon as it is due. The task is the one that the
request brought. It is launched when the wait is due, it does not start before, and neither comes
twice. Of the requests that a run answers the last is the one that is run. When the loop has nothing
to do, a run has started just if those launched before it for its key have ended. -/
theorem launched_iff_not_overtaken (before : List (Move τ ρ)) (key : String) (task : τ)
    (after : List (Move τ ρ)) :
    (dueAfter before < (since before key task after).now →
      ((follow before).made ∈ (since before key task after).launches.map Run.number ↔
        ¬ Overtaken before key task after)) ∧
    (Overtaken before key task after →
      (follow before).made ∉ (since before key task after).launches.map Run.number) ∧
    (¬ Overtaken before key task after →
      (follow before).made ∉ (since before key task after).launches.map Run.number →
      (since before key task after).isWaiting (follow before).made = true ∧
        (since before key task after).now ≤ dueAfter before ∧
        ((since before key task after).now = dueAfter before →
          (follow before).made ∈
            ((since before key task after).endWait (follow before).made).launches.map Run.number)) ∧
    (∀ time run, (time, .launched run) ∈ (since before key task after).log →
      run.number = (follow before).made →
      time = dueAfter before ∧ run.key = key ∧ run.task = task) ∧
    (∀ time run, (time, .started run) ∈ (since before key task after).log →
      run.number = (follow before).made →
      dueAfter before ≤ time ∧ run.key = key ∧ run.task = task) ∧
    ((since before key task after).launches.map Run.number).count (follow before).made ≤ 1 ∧
    ((since before key task after).starts.map Run.number).count (follow before).made ≤ 1 ∧
    (∀ run ∈ (since before key task after).launches, ∀ n ∈ run.answers,
      n ∈ (since before key task after).launches.map Run.number ↔ n = run.number) ∧
    ((since before key task after).IsIdle → ∀ other earlier run later,
      runsFor other (since before key task after).launches = earlier ++ run :: later →
      (run ∈ (since before key task after).starts ↔
        ∀ r ∈ earlier, r ∈ (since before key task after).ends)) := by
  have hsound := sound_since before key task after
  have hdistinct : (since before key task after).Distinct := distinct_follow _
  obtain ⟨hlaunched, hstarted⟩ := times_of_log before key task after
  refine ⟨?_, ?_, ?_, hlaunched, hstarted,
    List.nodup_iff_count_le_one.mp hdistinct.nodup_launches _,
    List.nodup_iff_count_le_one.mp (hdistinct.nodup_starts hsound) _,
    fun run hrun n hn ↦ hdistinct.launched_iff hrun hn, fun hidle other earlier run later hsplit ↦
    started_iff_of_isIdle hsound hdistinct hidle hsplit⟩
  · rintro hlater
    cases stage before key task after with
    | waits hwait => exact absurd (hsound.waiting.due _ hwait) (Nat.not_le_of_lt hlater)
    | launched hlaunch _ hovertaken => exact iff_of_true hlaunch hovertaken
    | overtaken hlaunch _ hovertaken => exact iff_of_false hlaunch (not_not.mpr hovertaken)
  · rintro hovertaken
    cases stage before key task after with
    | waits _ hlaunch => exact hlaunch
    | launched _ _ hnot => exact absurd hovertaken hnot
    | overtaken hlaunch => exact hlaunch
  · rintro hnot hlaunch
    cases stage before key task after with
    | waits hwait =>
      refine ⟨?_, hsound.waiting.due _ hwait, fun hdue ↦ ?_⟩
      · exact List.any_eq_true.mpr ⟨_, hwait, beq_self_eq_true _⟩
      · obtain ⟨answers, hlog⟩ := log_endWait hsound.waiting hwait (Nat.le_of_eq hdue.symm)
        rw [launches, hlog, List.filterMap_append, List.map_append]
        exact List.mem_append_right _ (List.mem_singleton.mpr rfl)
    | launched hmem => exact absurd hmem hlaunch
    | overtaken _ _ hovertaken => exact absurd hovertaken hnot

/-- A request comes while a run for its key is in progress, and the delay changes while it waits.
Its run is launched when the wait is over by the delay that was in force, and starts when the run
before it has ended. -/
theorem launched_iff_not_overtaken_busy :
    let before : List (Move Nat Nat) := [.setDelay 2, .request "k" 10, .pass 2, .endWait 0, .enter]
    let after : List (Move Nat Nat) :=
      [.setDelay 0, .pass 4, .endWait 1, .enter, .pass 5,
        .finish 0 (.returned (some 7)), .wake 0]
    dueAfter before < (since before "k" 20 after).now ∧ ¬ Overtaken before "k" 20 after ∧
      (⟨1, "k", 20, [1]⟩ : Run Nat) ∈ (since before "k" 20 after).starts := by
  intro before after
  have hlater : dueAfter before < (since before "k" 20 after).now := by decide
  have hidle : (since before "k" 20 after).IsIdle := ⟨by decide, fun gate ↦ by cases gate <;> rfl⟩
  obtain ⟨hiff, -, -, -, -, -, -, -, hstarted⟩ := launched_iff_not_overtaken before "k" 20 after
  refine ⟨hlater, (hiff hlater).mp (by decide), ?_⟩
  exact (hstarted hidle "k" [⟨0, "k", 10, [0]⟩] ⟨1, "k", 20, [1]⟩ [] (by decide)).mpr (by decide)

end Dispatcher

end MissionIndex.Schedule
